import ClausalProof.Engine
import ClausalProof.Proofs.Closure
import ClausalProof.Proofs.Store
import ClausalProof.Proofs.Trail

set_option autoImplicit false

/-!
The arrangement of an engine. Each live clause of two or more literals watches two of its places and
is listed once under each of the two literals there, and nowhere else; shorter clauses are kept in
the list of units and in the count of empty clauses. Clauses that come and go keep the arrangement.
-/
namespace ClausalProof

namespace Bounded

variable {α : Type}

/-- The elements before `i` stay, those after `i` are rearranged. -/
theorem swapRemove_append {xs : Array α} {A B : List α} {x : α} (h : xs.toList = A ++ x :: B) :
    ∃ ys C, swapRemove xs A.length = .ok (x, ys) ∧ ys.toList = A ++ C ∧ C.Perm B := by
  have hget : xs[A.length]? = some x := by
    rw [← Array.getElem?_toList, h]
    simp
  rcases List.eq_nil_or_concat' B with rfl | ⟨B', z, rfl⟩
  · have hback : xs.back? = some x := by
      rw [← Array.getLast?_toList, h]
      simp
    refine ⟨(xs.setIfInBounds A.length x).pop, [], by rw [swapRemove, hget, hback], ?_, .refl _⟩
    rw [Array.toList_pop, Array.toList_setIfInBounds, h]
    simp
  · rw [← List.cons_append, ← List.append_assoc] at h
    have hback : xs.back? = some z := by
      rw [← Array.getLast?_toList, h, List.getLast?_concat]
    refine ⟨(xs.setIfInBounds A.length z).pop, z :: B', by rw [swapRemove, hget, hback], ?_,
      (List.perm_append_singleton z B').symm⟩
    rw [Array.toList_pop, Array.toList_setIfInBounds, h, List.set_append_left _ _ (by simp),
      List.dropLast_concat]
    simp

end Bounded

namespace Engine

/-- The clauses listed under a literal; none beyond the table. -/
def rowOf (watchers : Array (Array Nat)) (l : Literal) : Array Nat := watchers[l.code]?.getD #[]

theorem rowOf_eq {watchers : Array (Array Nat)} {l : Literal} (h : l.code < watchers.size) :
    watchers[l.code]? = some (rowOf watchers l) := by
  simp [rowOf, h]

theorem rowOf_set {watchers : Array (Array Nat)} {l : Literal} (row : Array Nat)
    (h : l.code < watchers.size) (m : Literal) :
    rowOf (watchers.setIfInBounds l.code row) m = if m = l then row else rowOf watchers m := by
  rw [rowOf, Array.getElem?_setIfInBounds]
  by_cases hm : m = l
  · simp [hm, h]
  · rw [if_neg (fun hc => hm (Literal.code_inj.1 hc.symm)), if_neg hm, rowOf]

theorem watch_eq {watchers : Array (Array Nat)} {l : Literal} (id : Nat)
    (h : l.code < watchers.size) :
    watch watchers l id = .ok (watchers.setIfInBounds l.code ((rowOf watchers l).push id)) := by
  simp only [watch, Checked.bind_eq_ok]
  exact ⟨_, Bounded.get_eq_ok.2 (rowOf_eq h), Bounded.set_eq_ok.2 ⟨h, rfl⟩⟩

theorem unwatch_eq {watchers : Array (Array Nat)} {l : Literal} {id : Nat}
    (h : l.code < watchers.size) (hid : id ∈ rowOf watchers l) :
    ∃ row, unwatch watchers l id = .ok (watchers.setIfInBounds l.code row) ∧
      (id :: row.toList).Perm (rowOf watchers l).toList := by
  obtain ⟨i, hi⟩ := Option.isSome_iff_exists.1
    (Array.isSome_idxOf?.2 hid : ((rowOf watchers l).idxOf? id).isSome = true)
  have hlist : (rowOf watchers l).toList.idxOf? id = some i := by
    rw [← List.idxOf?_toArray, Array.toArray_toList, hi]
  obtain ⟨A, B, hAB, hA⟩ : ∃ A B, (rowOf watchers l).toList = A ++ id :: B ∧ A.length = i := by
    obtain ⟨hlt, hget, _⟩ := List.findIdx?_eq_some_iff_getElem.1 hlist
    refine ⟨(rowOf watchers l).toList.take i, (rowOf watchers l).toList.drop (i + 1), ?_, ?_⟩
    · rw [← beq_iff_eq.1 hget, ← List.drop_eq_getElem_cons hlt, List.take_append_drop]
    · rw [List.length_take]
      omega
  obtain ⟨row, C, hrow, hlits, hperm⟩ := Bounded.swapRemove_append hAB
  refine ⟨row, ?_, ?_⟩
  · simp only [unwatch, Checked.bind_eq_ok]
    refine ⟨_, Bounded.get_eq_ok.2 (rowOf_eq h), ?_⟩
    rw [hi]
    simp only [Checked.bind_eq_ok]
    exact ⟨_, hA ▸ hrow, Bounded.set_eq_ok.2 ⟨h, rfl⟩⟩
  · rw [hlits, hAB]
    exact ((hperm.append_left A).cons id).trans List.perm_middle.symm

/-- What is left of a list without repetitions when one element is taken out. -/
theorem mem_of_perm_cons {xs ys : List Nat} {id : Nat} (h : (id :: xs).Perm ys) (hys : ys.Nodup)
    {i : Nat} : i ∈ xs ↔ i ∈ ys ∧ i ≠ id := by
  have hnot := (List.nodup_cons.1 (h.nodup_iff.2 hys)).1
  rw [← h.mem_iff, List.mem_cons]
  constructor
  · exact fun hi => ⟨.inr hi, fun he => hnot (he ▸ hi)⟩
  · rintro ⟨hi | hi, hne⟩
    · exact absurd hi hne
    · exact hi

theorem watch_both {watchers : Array (Array Nat)} {a b : Literal} (id : Nat)
    (ha : a.code < watchers.size) (hb : b.code < watchers.size) (hab : a ≠ b) :
    ∃ rows rows', watch watchers a id = .ok rows ∧ watch rows b id = .ok rows' ∧
      rows'.size = watchers.size ∧ ∀ m, rowOf rows' m =
        if m = a ∨ m = b then (rowOf watchers m).push id else rowOf watchers m := by
  have hb' : b.code < (watchers.setIfInBounds a.code ((rowOf watchers a).push id)).size := by
    simpa using hb
  refine ⟨_, _, watch_eq id ha, watch_eq id hb', by simp, fun m => ?_⟩
  rw [rowOf_set _ hb', rowOf_set _ ha, rowOf_set _ ha]
  by_cases hmb : m = b
  · simp [hmb, Ne.symm hab]
  · by_cases hma : m = a
    · simp [hma, hab]
    · simp [hma, hmb]

theorem literalAt_eq_ok {c : Clause} {i : Nat} {l : Literal} :
    literalAt c i = .ok l ↔ (c)[i]? = some l := by
  unfold literalAt
  cases (c)[i]? <;> simp

end Engine

/-- One watched place of the clause holds `l` and the other one holds `other`. -/
def Watch.Pairs (w : Watch) (c : Clause) (l other : Literal) : Prop :=
  ((c)[w.first]? = some l ∧ (c)[w.second]? = some other) ∨
    ((c)[w.first]? = some other ∧ (c)[w.second]? = some l)

/-- The two places are different places of the clause. -/
def Watch.Within (w : Watch) (c : Clause) : Prop :=
  w.first < c.length ∧ w.second < c.length ∧ w.first ≠ w.second

namespace Watch

variable {w : Watch} {c : Clause} {l m other : Literal}

theorem Pairs.symm (h : w.Pairs c l other) : w.Pairs c other l := Or.symm h

theorem Pairs.mem (h : w.Pairs c l other) : l ∈ c := by
  rcases h with ⟨hl, _⟩ | ⟨_, hl⟩ <;> exact List.mem_of_getElem? hl

theorem place_inj {i j : Nat} (hc : c.Nodup) (hi : (c)[i]? = some l) (hj : (c)[j]? = some l) :
    i = j :=
  (List.getElem?_inj (List.getElem?_eq_some_iff.1 hi).1 hc).1 (hi.trans hj.symm)

theorem Pairs.ne (h : w.Pairs c l other) (hc : c.Nodup) (hw : w.Within c) : l ≠ other := by
  rintro rfl
  rcases h with ⟨ha, hb⟩ | ⟨ha, hb⟩ <;> exact hw.2.2 (place_inj hc ha hb)

theorem Pairs.other_unique (h : w.Pairs c l other) (hm : w.Pairs c l m) (hc : c.Nodup)
    (hw : w.Within c) : other = m := by
  rcases h with ⟨ha, hb⟩ | ⟨ha, hb⟩ <;> rcases hm with ⟨ha', hb'⟩ | ⟨ha', hb'⟩
  · exact Option.some.inj (hb.symm.trans hb')
  · exact absurd (place_inj hc ha hb') hw.2.2
  · exact absurd (place_inj hc ha' hb) hw.2.2
  · exact Option.some.inj (ha.symm.trans ha')

theorem Pairs.iff_of_pairs {a b : Literal} (h : w.Pairs c l other) :
    w.Pairs c a b ↔ (a = l ∧ b = other) ∨ (a = other ∧ b = l) := by
  rcases h with ⟨hl, ho⟩ | ⟨ho, hl⟩
  · simp only [Pairs, hl, ho, Option.some.injEq]
    constructor
    · rintro (⟨rfl, rfl⟩ | ⟨rfl, rfl⟩) <;> simp
    · rintro (⟨rfl, rfl⟩ | ⟨rfl, rfl⟩) <;> simp
  · simp only [Pairs, hl, ho, Option.some.injEq]
    constructor
    · rintro (⟨rfl, rfl⟩ | ⟨rfl, rfl⟩) <;> simp
    · rintro (⟨rfl, rfl⟩ | ⟨rfl, rfl⟩) <;> simp

theorem Within.exists_pairs (hw : w.Within c) : ∃ l other, w.Pairs c l other :=
  ⟨_, _, .inl ⟨List.getElem?_eq_getElem hw.1, List.getElem?_eq_getElem hw.2.1⟩⟩

theorem pairs_firstTwo {a b : Literal} {d : Clause} :
    Pairs ⟨0, 1⟩ (a :: b :: d) l other ↔ (l = a ∧ other = b) ∨ (l = b ∧ other = a) :=
  Pairs.iff_of_pairs (.inl ⟨rfl, rfl⟩)

end Watch

namespace Engine

/-- The live clause `id` watches `l`, and `other` besides. -/
def Pairs (e : Engine) (id : Nat) (l other : Literal) : Prop :=
  ∃ c w, (id, c) ∈ e.store.liveClauses ∧ 2 ≤ c.length ∧ e.watches[id]? = some w ∧
    w.Pairs c l other

theorem Pairs.symm {e : Engine} {id : Nat} {l other : Literal} (h : e.Pairs id l other) :
    e.Pairs id other l := by
  obtain ⟨c, w, hc, hlen, hw, hp⟩ := h
  exact ⟨c, w, hc, hlen, hw, hp.symm⟩

theorem Pairs.iff {e : Engine} {id : Nat} {l other a b : Literal} (h : e.Pairs id l other) :
    e.Pairs id a b ↔ (a = l ∧ b = other) ∨ (a = other ∧ b = l) := by
  obtain ⟨c, w, hc, hlen, hw, hp⟩ := h
  rw [← hp.iff_of_pairs]
  constructor
  · rintro ⟨c', w', hc', _, hw', hp'⟩
    cases hw.symm.trans hw'
    exact Store.eq_of_mem hc' hc ▸ hp'
  · exact fun hab => ⟨c, w, hc, hlen, hw, hab⟩

structure Arranged (e : Engine) : Prop where
  indexed : e.store.Indexed
  literals : ∀ c ∈ e.store.clauses, ∀ l ∈ c, l.isValid = true ∧ l.var ≤ e.maxVar
  watches_size : e.watches.size = e.store.size
  watchers_size : e.watchers.size = Literal.literalSlots e.maxVar
  within : ∀ id c w, (id, c) ∈ e.store.liveClauses → 2 ≤ c.length → e.watches[id]? = some w →
    w.Within c
  row_nodup : ∀ l, (rowOf e.watchers l).toList.Nodup
  mem_row : ∀ l id, id ∈ rowOf e.watchers l ↔ ∃ other, e.Pairs id l other
  units : e.units = (e.store.liveClauses.filter (·.2.length == 1)).map Prod.fst
  empties : e.emptyCount = e.store.liveClauses.countP (·.2.length == 0)

/-- Between two checks the trail is empty. -/
structure Idle (e : Engine) : Prop extends e.Arranged where
  trail : e.trail = .empty e.maxVar
  processed : e.processed = 0

theorem Idle.trail_isEmpty {e : Engine} (h : e.Idle) : e.trail.isEmpty = true := by
  rw [h.trail]
  rfl

theorem idle_empty (n : Nat) : (empty n).Idle := by
  have hlive : (empty n).store.liveClauses = [] := rfl
  have hrow : ∀ l, rowOf (empty n).watchers l = #[] := by
    intro l
    simp only [rowOf, empty, Array.getElem?_replicate]
    split <;> rfl
  constructor
  case trail => rfl
  case processed => rfl
  constructor
  case indexed => exact Store.indexed_empty
  case literals => simp [Store.clauses, hlive]
  case watches_size => rfl
  case watchers_size => simp [empty]
  case within => simp [hlive]
  case row_nodup => simp [hrow]
  case mem_row => simp [hrow, Pairs, hlive]
  case units => rfl
  case empties => rfl

/-- The engine `f` has one clause `d` more than `e`, under the next identifier and with watch `w`. -/
structure Extends (e f : Engine) (d : Clause) (w : Watch) : Prop where
  indexed : f.store.Indexed
  size : f.store.size = e.store.size + 1
  live : f.store.liveClauses = e.store.liveClauses ++ [(e.store.size, d)]
  maxVar : f.maxVar = e.maxVar
  watches : f.watches = e.watches.push w
  watchers_size : f.watchers.size = e.watchers.size
  within : 2 ≤ d.length → w.Within d
  watched : ∀ m, (2 ≤ d.length ∧ ∃ other, w.Pairs d m other) →
    rowOf f.watchers m = (rowOf e.watchers m).push e.store.size
  unwatched : ∀ m, ¬ (2 ≤ d.length ∧ ∃ other, w.Pairs d m other) →
    rowOf f.watchers m = rowOf e.watchers m
  units : f.units = e.units ++ if d.length = 1 then [e.store.size] else []
  empties : f.emptyCount = e.emptyCount + if d.length = 0 then 1 else 0

/-- The engine `f` lacks the clause `d` that `e` has under `id`, and lists it nowhere. -/
structure Drops (e f : Engine) (c : Clause) (older : List (Nat × Clause)) (id : Nat) (d : Clause)
    (newer : List (Nat × Clause)) : Prop where
  indexed : f.store.Indexed
  without : Store.Without e.store f.store c older id d newer
  maxVar : f.maxVar = e.maxVar
  watches : f.watches = e.watches
  watchers_size : f.watchers.size = e.watchers.size
  watched : ∀ m other, e.Pairs id m other →
    (id :: (rowOf f.watchers m).toList).Perm (rowOf e.watchers m).toList
  unwatched : ∀ m, (∀ other, ¬ e.Pairs id m other) → rowOf f.watchers m = rowOf e.watchers m
  units : f.units = if d.length = 1 then e.units.erase id else e.units
  empties : f.emptyCount = if d.length = 0 then e.emptyCount - 1 else e.emptyCount

namespace Arranged

variable {e f : Engine} {id : Nat} {l other : Literal}

theorem code_lt (h : e.Arranged) (hl : l.var ≤ e.maxVar) : l.code < e.watchers.size := by
  rw [h.watchers_size]
  exact Literal.code_lt_literalSlots.2 hl

theorem watchersOf (h : e.Arranged) (hl : l.var ≤ e.maxVar) :
    e.watchersOf l = .ok (rowOf e.watchers l) :=
  Bounded.get_eq_ok.2 (rowOf_eq (h.code_lt hl))

theorem bounded (h : e.Arranged) {c : Clause} (hc : (id, c) ∈ e.store.liveClauses) (hl : l ∈ c) :
    l.isValid = true ∧ l.var ≤ e.maxVar :=
  h.literals c (Store.mem_clauses.2 ⟨id, hc⟩) l hl

theorem exists_watch (h : e.Arranged) {c : Clause} (hc : (id, c) ∈ e.store.liveClauses) :
    ∃ w, e.watches[id]? = some w := by
  have hlt := Store.lt_size_of_mem hc
  rw [← h.watches_size] at hlt
  exact ⟨_, Array.getElem?_eq_getElem hlt⟩

theorem pairs_ne (h : e.Arranged) (hp : e.Pairs id l other) : l ≠ other := by
  obtain ⟨c, w, hc, hlen, hw, hp⟩ := hp
  exact hp.ne (h.indexed.nodup _ hc) (h.within id c w hc hlen hw)

theorem pairs_unique {m : Literal} (h : e.Arranged) (hp : e.Pairs id l other)
    (hq : e.Pairs id l m) : other = m := by
  obtain ⟨c, w, hc, hlen, hw, hp⟩ := hp
  obtain ⟨d, v, hd, _, hv, hq⟩ := hq
  cases hw.symm.trans hv
  rw [Store.eq_of_mem hd hc] at hq
  exact hp.other_unique hq (h.indexed.nodup _ hc) (h.within id c w hc hlen hw)

theorem lt_size_of_mem_row (h : e.Arranged) (hid : id ∈ rowOf e.watchers l) :
    id < e.store.size := by
  obtain ⟨_, c, _, hc, _⟩ := (h.mem_row l id).1 hid
  exact Store.lt_size_of_mem hc

theorem pairs_of_extends {d : Clause} {w : Watch}
    (h : e.Arranged) (hf : Extends e f d w) :
    f.Pairs id l other ↔
      e.Pairs id l other ∨ (id = e.store.size ∧ 2 ≤ d.length ∧ w.Pairs d l other) := by
  constructor
  · rintro ⟨c, v, hc, hlen, hv, hp⟩
    rw [hf.live] at hc
    rcases List.mem_append.1 hc with hc | hc
    · have hlt := Store.lt_size_of_mem hc
      rw [hf.watches, Array.getElem?_push_lt (by rw [h.watches_size]; exact hlt)] at hv
      exact .inl ⟨c, v, hc, hlen, by rw [← hv, Array.getElem?_eq_getElem], hp⟩
    · obtain ⟨rfl, rfl⟩ := Prod.mk.inj (List.mem_singleton.1 hc)
      rw [hf.watches, ← h.watches_size, Array.getElem?_push_size] at hv
      cases hv
      exact .inr ⟨rfl, hlen, hp⟩
  · rintro (⟨c, v, hc, hlen, hv, hp⟩ | ⟨rfl, hlen, hp⟩)
    · refine ⟨c, v, ?_, hlen, ?_, hp⟩
      · rw [hf.live]
        exact List.mem_append_left _ hc
      · rw [hf.watches, Array.getElem?_push, if_neg, hv]
        have hlt := Store.lt_size_of_mem hc
        rw [h.watches_size]
        omega
    · refine ⟨d, w, ?_, hlen, ?_, hp⟩
      · rw [hf.live]
        simp
      · rw [hf.watches, ← h.watches_size, Array.getElem?_push_size]

theorem row_nodup_of_extends {d : Clause} {w : Watch} (h : e.Arranged) (hf : Extends e f d w)
    (m : Literal) : (rowOf f.watchers m).toList.Nodup := by
  by_cases hm : 2 ≤ d.length ∧ ∃ other, w.Pairs d m other
  · rw [hf.watched m hm, Array.toList_push, List.nodup_append]
    refine ⟨h.row_nodup m, List.nodup_singleton _, ?_⟩
    rintro a ha b hb rfl
    -- the new identifier is beyond all those listed
    rw [List.mem_singleton.1 hb, Array.mem_toList_iff] at ha
    exact Nat.lt_irrefl _ (h.lt_size_of_mem_row ha)
  · rw [hf.unwatched m hm]
    exact h.row_nodup m

theorem mem_row_of_extends {d : Clause} {w : Watch} (h : e.Arranged) (hf : Extends e f d w)
    (m : Literal) (i : Nat) : i ∈ rowOf f.watchers m ↔ ∃ other, f.Pairs i m other := by
  simp only [h.pairs_of_extends hf]
  by_cases hm : 2 ≤ d.length ∧ ∃ other, w.Pairs d m other
  · rw [hf.watched m hm, Array.mem_push, h.mem_row]
    constructor
    · rintro (⟨o, ho⟩ | rfl)
      · exact ⟨o, .inl ho⟩
      · obtain ⟨hlen, o, ho⟩ := hm
        exact ⟨o, .inr ⟨rfl, hlen, ho⟩⟩
    · rintro ⟨o, ho | ⟨rfl, _⟩⟩
      · exact .inl ⟨o, ho⟩
      · exact .inr rfl
  · rw [hf.unwatched m hm, h.mem_row]
    refine exists_congr fun o => ?_
    exact ⟨.inl, fun ho => ho.resolve_right fun hn => hm ⟨hn.2.1, o, hn.2.2⟩⟩

theorem of_extends {d : Clause} {w : Watch} (h : e.Arranged) (hf : Extends e f d w)
    (hd : ∀ l ∈ d, l.isValid = true ∧ l.var ≤ e.maxVar) : f.Arranged := by
  constructor
  case indexed => exact hf.indexed
  case literals =>
    intro c hc l hl
    rw [Store.clauses, hf.live, List.map_append] at hc
    rw [hf.maxVar]
    rcases List.mem_append.1 hc with hc | hc
    · exact h.literals c hc l hl
    · obtain rfl : c = d := List.mem_singleton.1 hc
      exact hd l hl
  case watches_size => rw [hf.watches, Array.size_push, h.watches_size, hf.size]
  case watchers_size => rw [hf.watchers_size, h.watchers_size, hf.maxVar]
  case within =>
    intro id c v hc hlen hv
    rw [hf.live] at hc
    rcases List.mem_append.1 hc with hc | hc
    · obtain ⟨u, hu⟩ := h.exists_watch hc
      have hlt := (Array.getElem?_eq_some_iff.1 hu).1
      rw [hf.watches, Array.getElem?_push, if_neg (Nat.ne_of_lt hlt)] at hv
      exact h.within id c v hc hlen hv
    · obtain ⟨rfl, rfl⟩ := Prod.mk.inj (List.mem_singleton.1 hc)
      rw [hf.watches, ← h.watches_size, Array.getElem?_push_size] at hv
      cases hv
      exact hf.within hlen
  case row_nodup => exact h.row_nodup_of_extends hf
  case mem_row => exact h.mem_row_of_extends hf
  case units =>
    rw [hf.units, hf.live, List.filter_append, List.map_append, h.units]
    by_cases h1 : d.length = 1 <;> simp [h1]
  case empties =>
    rw [hf.empties, hf.live, List.countP_append, h.empties]
    by_cases h0 : d.length = 0 <;> simp [h0]

theorem pairs_of_drops {c d : Clause} {older newer : List (Nat × Clause)} {i : Nat}
    (hf : Drops e f c older id d newer) :
    f.Pairs i l other ↔ e.Pairs i l other ∧ i ≠ id := by
  constructor
  · rintro ⟨c, w, hc, hlen, hw, hp⟩
    obtain ⟨hc, hne⟩ := hf.without.mem_iff.1 hc
    exact ⟨⟨c, w, hc, hlen, hf.watches ▸ hw, hp⟩, hne⟩
  · rintro ⟨⟨c, w, hc, hlen, hw, hp⟩, hne⟩
    exact ⟨c, w, hf.without.mem_iff.2 ⟨hc, hne⟩, hlen, hf.watches ▸ hw, hp⟩

theorem mem_row_of_drops {c d : Clause} {older newer : List (Nat × Clause)} (h : e.Arranged)
    (hf : Drops e f c older id d newer) (m : Literal) (i : Nat) :
    i ∈ rowOf f.watchers m ↔ ∃ other, f.Pairs i m other := by
  simp only [pairs_of_drops hf]
  by_cases hm : ∃ other, e.Pairs id m other
  · obtain ⟨other, hp⟩ := hm
    rw [← Array.mem_toList_iff, mem_of_perm_cons (hf.watched m other hp) (h.row_nodup m),
      Array.mem_toList_iff, h.mem_row, exists_and_right]
  · rw [hf.unwatched m (fun o ho => hm ⟨o, ho⟩), h.mem_row]
    refine exists_congr fun o => ?_
    exact ⟨fun ho => ⟨ho, fun he => hm ⟨o, he ▸ ho⟩⟩, And.left⟩

theorem units_of_drops {c d : Clause} {older newer : List (Nat × Clause)} (h : e.Arranged)
    (hf : Drops e f c older id d newer) :
    f.units = (f.store.liveClauses.filter (·.2.length == 1)).map Prod.fst := by
  have hunits : id ∉ (older.filter (·.2.length == 1)).map Prod.fst := by
    intro hid
    obtain ⟨x, hx, rfl⟩ := List.mem_map.1 hid
    have hx' : x ∈ f.store.liveClauses := by
      rw [hf.without.after]
      exact List.mem_append_left _ (List.mem_of_mem_filter hx)
    exact (hf.without.mem_iff.1 hx').2 rfl
  rw [hf.units, h.units, hf.without.before, hf.without.after, List.filter_append,
    List.filter_append, List.map_append, List.map_append, List.filter_cons]
  by_cases h1 : d.length = 1
  · simp [h1, List.erase_append_right _ hunits]
  · simp [h1]

theorem of_drops {c d : Clause} {older newer : List (Nat × Clause)} (h : e.Arranged)
    (hf : Drops e f c older id d newer) : f.Arranged := by
  have hmem : ∀ x, x ∈ f.store.liveClauses ↔ x ∈ e.store.liveClauses ∧ x.1 ≠ id :=
    fun _ => hf.without.mem_iff
  constructor
  case indexed => exact hf.indexed
  case literals =>
    intro c hc l hl
    obtain ⟨i, hi⟩ := Store.mem_clauses.1 hc
    rw [hf.maxVar]
    exact h.bounded ((hmem _).1 hi).1 hl
  case watches_size => rw [hf.watches, h.watches_size, hf.without.size]
  case watchers_size => rw [hf.watchers_size, h.watchers_size, hf.maxVar]
  case within =>
    intro i c w hc hlen hw
    exact h.within i c w ((hmem _).1 hc).1 hlen (hf.watches ▸ hw)
  case row_nodup =>
    intro m
    by_cases hm : ∃ other, e.Pairs id m other
    · obtain ⟨other, hp⟩ := hm
      exact (List.nodup_cons.1 ((hf.watched m other hp).nodup_iff.2 (h.row_nodup m))).2
    · rw [hf.unwatched m (fun o ho => hm ⟨o, ho⟩)]
      exact h.row_nodup m
  case mem_row => exact h.mem_row_of_drops hf
  case units => exact h.units_of_drops hf
  case empties =>
    rw [hf.empties, h.empties, hf.without.before, hf.without.after, List.countP_append,
      List.countP_append, List.countP_cons]
    by_cases h0 : d.length = 0
    · simp only [h0, beq_self_eq_true, if_true]
      omega
    · simp [h0]

/-- A watched clause can be struck off the lists of its two literals. -/
theorem unwatch_both {c : Clause} {w : Watch} {a b : Literal} (h : e.Arranged)
    (hc : (id, c) ∈ e.store.liveClauses) (hlen : 2 ≤ c.length) (hw : e.watches[id]? = some w)
    (ha : (c)[w.first]? = some a) (hb : (c)[w.second]? = some b) :
    ∃ rows rows', unwatch e.watchers a id = .ok rows ∧ unwatch rows b id = .ok rows' ∧
      rows'.size = e.watchers.size ∧
      (∀ m other, e.Pairs id m other →
        (id :: (rowOf rows' m).toList).Perm (rowOf e.watchers m).toList) ∧
      ∀ m, (∀ other, ¬ e.Pairs id m other) → rowOf rows' m = rowOf e.watchers m := by
  have hp : e.Pairs id a b := ⟨c, w, hc, hlen, hw, .inl ⟨ha, hb⟩⟩
  have hne := h.pairs_ne hp
  have hca := h.code_lt (h.bounded hc (List.mem_of_getElem? ha)).2
  have hcb := h.code_lt (h.bounded hc (List.mem_of_getElem? hb)).2
  obtain ⟨row, hrow, hperm⟩ := unwatch_eq hca ((h.mem_row a id).2 ⟨b, hp⟩)
  have hcb' : b.code < (e.watchers.setIfInBounds a.code row).size := by simpa using hcb
  have hsame : rowOf (e.watchers.setIfInBounds a.code row) b = rowOf e.watchers b := by
    rw [rowOf_set row hca, if_neg (Ne.symm hne)]
  obtain ⟨row', hrow', hperm'⟩ := unwatch_eq hcb' (hsame ▸ (h.mem_row b id).2 ⟨a, hp.symm⟩)
  rw [hsame] at hperm'
  refine ⟨_, _, hrow, hrow', by simp, fun m other hm => ?_, fun m hm => ?_⟩
  · rw [rowOf_set row' hcb', rowOf_set row hca]
    rcases hp.iff.1 hm with ⟨rfl, _⟩ | ⟨rfl, _⟩
    · simpa [hne] using hperm
    · simpa using hperm'
  · have hma : m ≠ a := fun he => hm b (he ▸ hp)
    have hmb : m ≠ b := fun he => hm a (he ▸ hp.symm)
    rw [rowOf_set row' hcb', if_neg hmb, rowOf_set row hca, if_neg hma]

end Arranged

/-- A clause can be added to an idle engine as long as there are identifiers. -/
theorem Idle.add {e : Engine} {c : Clause} (h : e.Idle) (derived : Bool)
    (hc : ∀ l ∈ c, l.isValid = true ∧ l.var ≤ e.maxVar) (hs : e.store.size ≤ maxIdentifier) :
    ∃ f, e.add c derived = .ok (e.store.size, f) ∧ f.Idle ∧ f.maxVar = e.maxVar ∧
      e.store.add c derived = .ok (e.store.size, f.store) ∧
      f.store.clause e.store.size = .ok c.eraseDups := by
  obtain ⟨t, hadd, hindexed, hsize, hlive⟩ :=
    h.indexed.add derived (fun l hl => Literal.isZero_of_isValid (hc l hl).1) hs
  have hempty := h.trail_isEmpty
  have hvars : (c.all fun l => l.var ≤ e.maxVar) = true := by
    simpa using fun l hl => (hc l hl).2
  have hwatches : (e.watches.size == e.store.size) = true := by simp [h.watches_size]
  have hclause : t.clause e.store.size = .ok c.eraseDups :=
    Store.clause_of_mem (by rw [hlive]; simp)
  have hd : ∀ l ∈ c.eraseDups, l.isValid = true ∧ l.var ≤ e.maxVar :=
    fun l hl => hc l (List.mem_eraseDups.1 hl)
  -- it is enough to say what the clause does to the lists
  suffices hf : ∃ f w, e.add c derived = .ok (e.store.size, f) ∧ Extends e f c.eraseDups w ∧
      f.store = t ∧ f.trail = e.trail ∧ f.processed = e.processed by
    obtain ⟨f, w, hef, hext, rfl, htrail, hprocessed⟩ := hf
    refine ⟨f, hef, ⟨h.toArranged.of_extends hext hd, ?_, ?_⟩, hext.maxVar, hadd, hclause⟩
    · rw [htrail, h.trail, hext.maxVar]
    · rw [hprocessed, h.processed]
  have hnodup : c.eraseDups.Nodup := Clause.nodup_eraseDups c
  generalize c.eraseDups = d at hlive hclause hd hnodup ⊢
  match d with
  | [] =>
    refine ⟨{ e with store := t, emptyCount := e.emptyCount + 1, watches := e.watches.push ⟨0, 0⟩ },
      ⟨0, 0⟩, ?_, ⟨hindexed, hsize, hlive, rfl, rfl, rfl, ?_, ?_, fun _ _ => rfl, ?_, rfl⟩,
      rfl, rfl, rfl⟩
    · simp [Engine.add, require, hempty, hvars, hadd, hwatches, hclause, bind, Except.bind, pure,
        Except.pure]
    all_goals simp
  | [a] =>
    refine ⟨{ e with store := t, units := e.units ++ [e.store.size], watches := e.watches.push ⟨0, 0⟩ },
      ⟨0, 0⟩, ?_, ⟨hindexed, hsize, hlive, rfl, rfl, rfl, ?_, ?_, fun _ _ => rfl, rfl, ?_⟩,
      rfl, rfl, rfl⟩
    · simp [Engine.add, require, hempty, hvars, hadd, hwatches, hclause, bind, Except.bind, pure,
        Except.pure]
    all_goals simp
  | a :: b :: d =>
    have hab : a ≠ b := by
      rintro rfl
      simp at hnodup
    obtain ⟨rows, rows', hrows, hrows', hsize', hrow⟩ := watch_both e.store.size
      (h.code_lt (hd a (by simp)).2) (h.code_lt (hd b (by simp)).2) hab
    refine ⟨{ e with store := t, watchers := rows', watches := e.watches.push ⟨0, 1⟩ },
      ⟨0, 1⟩, ?_, ⟨hindexed, hsize, hlive, rfl, rfl, hsize', ?_, ?_, ?_, ?_, ?_⟩, rfl, rfl, rfl⟩
    · simp [Engine.add, require, hempty, hvars, hadd, hwatches, hclause, hrows, hrows', bind,
        Except.bind, pure, Except.pure]
    · intro _
      refine ⟨?_, ?_, ?_⟩ <;> simp
    · rintro m ⟨_, other, hp⟩
      rw [hrow, if_pos ((Watch.pairs_firstTwo.1 hp).imp And.left And.left)]
    · intro m hm
      rw [hrow, if_neg]
      rintro (rfl | rfl)
      · exact hm ⟨by simp, b, Watch.pairs_firstTwo.2 (.inl ⟨rfl, rfl⟩)⟩
      · exact hm ⟨by simp, a, Watch.pairs_firstTwo.2 (.inr ⟨rfl, rfl⟩)⟩
    · simp
    · simp

theorem Idle.add_overflow {e : Engine} {c : Clause} (h : e.Idle) (derived : Bool)
    (hc : ∀ l ∈ c, l.isValid = true ∧ l.var ≤ e.maxVar) (hs : maxIdentifier < e.store.size) :
    e.add c derived = .error .identifierRange := by
  have hempty := h.trail_isEmpty
  have hvars : (c.all fun l => l.var ≤ e.maxVar) = true := by
    simpa using fun l hl => (hc l hl).2
  have hadd := Store.add_overflow c derived hs
  simp [Engine.add, require, hempty, hvars, hadd, bind, Except.bind]

/-- Variables beyond the tables are refused. -/
theorem Idle.add_unknown {e : Engine} {c : Clause} (h : e.Idle) (derived : Bool)
    (hc : ¬ ∀ l ∈ c, l.var ≤ e.maxVar) : e.add c derived = .error .unknownVariable := by
  have hvars : (c.all fun l => l.var ≤ e.maxVar) = false := by simpa using hc
  simp [Engine.add, require, h.trail_isEmpty, hvars, bind, Except.bind]

/-- Deleting takes out the oldest clause with the same literals, or there is none. -/
theorem Idle.delete {e : Engine} (h : e.Idle) (c : Clause) :
    (e.delete c = .ok (none, e) ∧ e.store.delete c = .ok (none, e.store) ∧
      ∀ x ∈ e.store.liveClauses, Clause.key x.2 ≠ Clause.key c) ∨
    ∃ f older id d newer, e.delete c = .ok (some id, f) ∧ f.Idle ∧ f.maxVar = e.maxVar ∧
      e.store.delete c = .ok (some id, f.store) ∧
      Store.Without e.store f.store c older id d newer := by
  have hempty := h.trail_isEmpty
  rcases h.indexed.delete c with ⟨hdel, hnone⟩ | ⟨t, older, id, d, newer, hdel, hindexed, hwithout⟩
  · refine .inl ⟨?_, hdel, hnone⟩
    simp [Engine.delete, require, hempty, hdel, bind, Except.bind, pure, Except.pure]
  right
  suffices hf : ∃ f, e.delete c = .ok (some id, f) ∧ Drops e f c older id d newer ∧
      f.store = t ∧ f.trail = e.trail ∧ f.processed = e.processed by
    obtain ⟨f, hef, hdrop, rfl, htrail, hprocessed⟩ := hf
    refine ⟨f, older, id, d, newer, hef, ⟨h.toArranged.of_drops hdrop, ?_, ?_⟩, hdrop.maxVar, hdel,
      hwithout⟩
    · rw [htrail, h.trail, hdrop.maxVar]
    · rw [hprocessed, h.processed]
  have hmem := hwithout.mem
  have hkept := hwithout.kept
  have hshort : d.length < 2 → ∀ m other, ¬ e.Pairs id m other := by
    rintro hlen m other ⟨c', w, hc', hlen', _⟩
    rw [Store.eq_of_mem hc' hmem] at hlen'
    omega
  rcases d with _ | ⟨a, _ | ⟨b, d⟩⟩
  case nil =>
    have hcount : 0 < e.emptyCount := by
      rw [h.empties]
      exact List.countP_pos_iff.2 ⟨_, hmem, by simp⟩
    refine ⟨{ e with store := t, emptyCount := e.emptyCount - 1 }, ?_,
      ⟨hindexed, hwithout, rfl, rfl, rfl, ?_, fun _ _ => rfl, rfl, rfl⟩, rfl, rfl, rfl⟩
    · simp [Engine.delete, require, hempty, hdel, hkept, hasEmptyClause, hcount, bind, Except.bind,
        pure, Except.pure]
    · exact fun m other hp => absurd hp (hshort (by simp) m other)
  case cons.nil =>
    have hunit : id ∈ e.units := by
      rw [h.units]
      exact List.mem_map.2 ⟨_, List.mem_filter.2 ⟨hmem, by simp⟩, rfl⟩
    refine ⟨{ e with store := t, units := e.units.erase id }, ?_,
      ⟨hindexed, hwithout, rfl, rfl, rfl, ?_, fun _ _ => rfl, rfl, rfl⟩, rfl, rfl, rfl⟩
    · simp [Engine.delete, require, hempty, hdel, hkept, hunit, bind, Except.bind, pure, Except.pure]
    · exact fun m other hp => absurd hp (hshort (by simp) m other)
  case cons.cons =>
    have hlen : 2 ≤ (a :: b :: d).length := by simp
    obtain ⟨w, hw⟩ := h.exists_watch hmem
    have hwithin := h.within id _ w hmem hlen hw
    obtain ⟨l, hl⟩ : ∃ l, (a :: b :: d)[w.first]? = some l := ⟨_, List.getElem?_eq_getElem hwithin.1⟩
    obtain ⟨m, hm⟩ : ∃ m, (a :: b :: d)[w.second]? = some m :=
      ⟨_, List.getElem?_eq_getElem hwithin.2.1⟩
    obtain ⟨rows, rows', hrows, hrows', hsize, hwatched, hunwatched⟩ :=
      h.unwatch_both hmem hlen hw hl hm
    refine ⟨{ e with store := t, watchers := rows' }, ?_,
      ⟨hindexed, hwithout, rfl, rfl, hsize, hwatched, hunwatched, by simp, by simp⟩, rfl, rfl, rfl⟩
    simp [Engine.delete, require, hempty, hdel, hkept, Bounded.get_eq_ok.2 hw,
      literalAt_eq_ok.2 hl, literalAt_eq_ok.2 hm, hrows, hrows', bind, Except.bind, pure, Except.pure]

end Engine
end ClausalProof
