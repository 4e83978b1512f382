import ClausalProof.Engine.Propagation
import ClausalProof.Proofs.Engine.Watching

set_option autoImplicit false

/-!
A visit of one clause in the list of a false literal. It leaves the engine alone, moves a watch from
the false literal to another one, forces the other watched literal, or finds the clause falsified.
It cannot fault, and the arrangement stays.
-/
namespace ClausalProof.Engine

/-- An engine in the middle of a check. -/
structure Running (e : Engine) : Prop extends e.Arranged where
  faithful : e.trail.Faithful e.maxVar
  processed_le : e.processed ≤ e.trail.size

theorem Idle.running {e : Engine} (h : e.Idle) : e.Running := by
  refine ⟨h.toArranged, ?_, ?_⟩
  · rw [h.trail]
    exact Trail.faithful_empty e.maxVar
  · rw [h.processed]
    exact Nat.zero_le _

theorem replacement_cases {n : Nat} {t : Trail} (ht : t.Faithful n) (w : Watch) {c : Clause}
    (hc : ∀ l ∈ c, l.var ≤ n) (i : Nat) :
    (∃ j m, replacement t w i c = .ok (some (i + j, m)) ∧ (c)[j]? = some m ∧
      i + j ≠ w.first ∧ i + j ≠ w.second ∧ -m ∉ t.literals) ∨
    (replacement t w i c = .ok none ∧
      ∀ j m, (c)[j]? = some m → i + j ≠ w.first → i + j ≠ w.second → -m ∈ t.literals) := by
  induction c generalizing i with
  | nil => exact .inr ⟨rfl, by simp⟩
  | cons l c ih =>
    have hl : (-l).var ≤ n := hc l List.mem_cons_self
    have hrest := ih (fun m hm => hc m (List.mem_cons_of_mem _ hm)) (i + 1)
    by_cases hskip : (i = w.first ∨ i = w.second) ∨ -l ∈ t.literals
    · have hstep : replacement t w i (l :: c) = replacement t w (i + 1) c := by
        rw [replacement, ht.value hl]
        by_cases hi : i = w.first ∨ i = w.second
        · rw [if_pos hi]
        · rw [if_neg hi, decide_eq_true (hskip.resolve_left hi)]
          rfl
      rw [hstep]
      rcases hrest with ⟨j, m, hr, hj, h1, h2, hm⟩ | ⟨hr, hall⟩
      · refine .inl ⟨j + 1, m, ?_, by simpa using hj, ?_, ?_, hm⟩
        · rw [hr, Nat.add_assoc, Nat.add_comm 1 j]
        · omega
        · omega
      · refine .inr ⟨hr, ?_⟩
        intro j m hj h1 h2
        cases j with
        | zero =>
          obtain rfl : l = m := by simpa using hj
          exact hskip.resolve_left (by omega)
        | succ j => exact hall j m (by simpa using hj) (by omega) (by omega)
    · have hi : ¬ (i = w.first ∨ i = w.second) := fun h => hskip (.inl h)
      have hn : -l ∉ t.literals := fun h => hskip (.inr h)
      refine .inl ⟨0, l, ?_, rfl, ?_, ?_, hn⟩
      · rw [replacement, if_neg hi, ht.value hl, decide_eq_false hn]
        rfl
      · omega
      · omega

/-- The clause `c` under `id` can watch `m` by `v`, in place of `l`. The list `A ++ id :: B` of `l`
    becomes `row`. -/
structure Relocation (e : Engine) (id : Nat) (c : Clause) (v : Watch) (l other m : Literal)
    (row : Array Nat) (A B C : List Nat) : Prop where
  live : (id, c) ∈ e.store.liveClauses
  pairs : e.Pairs id l other
  mem : m ∈ c
  ne : m ≠ l
  ne_other : m ≠ other
  watch : v.Pairs c m other
  within : v.Within c
  before : (rowOf e.watchers l).toList = A ++ id :: B
  after : row.toList = A ++ C
  perm : C.Perm B

def relocated (e : Engine) (id : Nat) (v : Watch) (l m : Literal) (row : Array Nat) : Engine :=
  { e with
    watches := e.watches.setIfInBounds id v
    watchers := (e.watchers.setIfInBounds l.code row).setIfInBounds m.code
      ((rowOf e.watchers m).push id) }

namespace Relocation

variable {e : Engine} {id : Nat} {c : Clause} {v : Watch} {l other m : Literal} {row : Array Nat}
  {A B C : List Nat}

theorem rowOf_relocated (h : Relocation e id c v l other m row A B C) (he : e.Arranged)
    (k : Literal) : rowOf (e.relocated id v l m row).watchers k =
      if k = m then (rowOf e.watchers m).push id else if k = l then row else rowOf e.watchers k := by
  obtain ⟨c', w, hc', _, _, hp⟩ := h.pairs
  have hl := he.code_lt (he.bounded hc' hp.mem).2
  have hm : m.code < (e.watchers.setIfInBounds l.code row).size := by
    simpa using he.code_lt (he.bounded h.live h.mem).2
  rw [relocated, rowOf_set _ hm, rowOf_set _ hl]

theorem watches_relocated (h : Relocation e id c v l other m row A B C) (i : Nat) :
    (e.relocated id v l m row).watches[i]? = if i = id then some v else e.watches[i]? := by
  obtain ⟨_, _, _, _, hw, _⟩ := h.pairs
  have hid : id < e.watches.size := (Array.getElem?_eq_some_iff.1 hw).1
  rw [relocated, Array.getElem?_setIfInBounds]
  by_cases hi : id = i
  · simp [← hi, hid]
  · rw [if_neg hi, if_neg (Ne.symm hi)]

theorem pairs_relocated (h : Relocation e id c v l other m row A B C) (i : Nat) (a b : Literal) :
    (e.relocated id v l m row).Pairs i a b ↔
      (i ≠ id ∧ e.Pairs i a b) ∨ (i = id ∧ ((a = m ∧ b = other) ∨ (a = other ∧ b = m))) := by
  rw [← h.watch.iff_of_pairs]
  constructor
  · rintro ⟨c', w', hc', hlen', hw', hp'⟩
    rw [h.watches_relocated] at hw'
    by_cases hi : i = id
    · subst hi
      rw [if_pos rfl] at hw'
      cases hw'
      exact .inr ⟨rfl, Store.eq_of_mem hc' h.live ▸ hp'⟩
    · rw [if_neg hi] at hw'
      exact .inl ⟨hi, c', w', hc', hlen', hw', hp'⟩
  · rintro (⟨hi, c', w', hc', hlen', hw', hp'⟩ | ⟨rfl, hab⟩)
    · exact ⟨c', w', hc', hlen', by rw [h.watches_relocated, if_neg hi, hw'], hp'⟩
    · obtain ⟨c', w', hc', hlen', _⟩ := h.pairs
      exact ⟨c, v, h.live, Store.eq_of_mem hc' h.live ▸ hlen',
        by rw [h.watches_relocated, if_pos rfl], hab⟩

theorem perm_before (h : Relocation e id c v l other m row A B C) :
    (id :: row.toList).Perm (rowOf e.watchers l).toList := by
  rw [h.before, h.after]
  exact List.perm_middle.symm.trans ((h.perm.cons id).append_left A)

theorem mem_after (h : Relocation e id c v l other m row A B C) (he : e.Arranged) {i : Nat} :
    i ∈ row ↔ i ∈ rowOf e.watchers l ∧ i ≠ id := by
  rw [← Array.mem_toList_iff, ← Array.mem_toList_iff]
  exact mem_of_perm_cons h.perm_before (he.row_nodup l)

theorem not_mem_row (h : Relocation e id c v l other m row A B C) (he : e.Arranged) :
    id ∉ rowOf e.watchers m := by
  intro hi
  obtain ⟨b, hb⟩ := (he.mem_row m id).1 hi
  rcases h.pairs.iff.1 hb with ⟨hm, _⟩ | ⟨hm, _⟩
  · exact h.ne hm
  · exact h.ne_other hm

theorem row_nodup (h : Relocation e id c v l other m row A B C) (he : e.Arranged) (k : Literal) :
    (rowOf (e.relocated id v l m row).watchers k).toList.Nodup := by
  rw [h.rowOf_relocated he]
  split
  · rw [Array.toList_push, List.nodup_append]
    refine ⟨he.row_nodup m, List.nodup_singleton _, ?_⟩
    rintro a ha b hb rfl
    exact h.not_mem_row he (Array.mem_toList_iff.1 (List.mem_singleton.1 hb ▸ ha))
  · split
    · exact (List.nodup_cons.1 (h.perm_before.nodup_iff.2 (he.row_nodup l))).2
    · exact he.row_nodup k

theorem mem_row (h : Relocation e id c v l other m row A B C) (he : e.Arranged) (k : Literal)
    (i : Nat) : i ∈ rowOf (e.relocated id v l m row).watchers k ↔
      ∃ b, (e.relocated id v l m row).Pairs i k b := by
  have hne : l ≠ other := he.pairs_ne h.pairs
  simp only [h.rowOf_relocated he, h.pairs_relocated]
  by_cases hi : i = id
  · subst hi
    -- the clause itself is listed under `m` and `other`
    have hlisted : i ∈ rowOf e.watchers k ↔ k = l ∨ k = other := by
      rw [he.mem_row]
      simp only [h.pairs.iff]
      constructor
      · rintro ⟨b, ⟨hk, _⟩ | ⟨hk, _⟩⟩
        · exact .inl hk
        · exact .inr hk
      · rintro (hk | hk)
        · exact ⟨other, .inl ⟨hk, rfl⟩⟩
        · exact ⟨l, .inr ⟨hk, rfl⟩⟩
    have hafter : i ∉ row := fun hi => (h.mem_after he |>.1 hi).2 rfl
    have hml := h.ne
    by_cases hkm : k = m
    · simp [hkm]
    · by_cases hkl : k = l
      · simp [hkl, Ne.symm hml, hafter, hne]
      · simp [hkm, hkl, hlisted]
  · have hafter : i ∈ row ↔ i ∈ rowOf e.watchers l := by simp [h.mem_after he, hi]
    by_cases hkm : k = m
    · simp [hkm, hi, he.mem_row]
    · by_cases hkl : k = l
      · simp [hkl, Ne.symm h.ne, hi, hafter, he.mem_row]
      · simp [hkm, hkl, hi, he.mem_row]

/-- Moving a watch to another literal of the clause keeps the arrangement. -/
theorem arranged (h : Relocation e id c v l other m row A B C) (he : e.Arranged) :
    (e.relocated id v l m row).Arranged := by
  constructor
  case indexed => exact he.indexed
  case literals => exact he.literals
  case watches_size => simpa [relocated] using he.watches_size
  case watchers_size => simpa [relocated] using he.watchers_size
  case within =>
    intro i c' w' hc' hlen' hw'
    rw [h.watches_relocated] at hw'
    by_cases hi : i = id
    · subst hi
      rw [if_pos rfl] at hw'
      cases hw'
      exact Store.eq_of_mem h.live hc' ▸ h.within
    · rw [if_neg hi] at hw'
      exact he.within i c' w' hc' hlen' hw'
  case row_nodup => exact h.row_nodup he
  case mem_row => exact h.mem_row he
  case units => exact he.units
  case empties => exact he.empties

end Relocation

/-- What a visit of the place `i` in the list of `l` reads before it looks at the trail. -/
structure Reads (e : Engine) (l : Literal) (i id : Nat) (c : Clause) (w : Watch)
    (a b other : Literal) : Prop where
  row : e.watchersOf l = .ok (rowOf e.watchers l)
  place : Bounded.get (rowOf e.watchers l) i = .ok id
  clause : e.store.clause id = .ok c
  watch : Bounded.get e.watches id = .ok w
  first : (c)[w.first]? = some a
  second : (c)[w.second]? = some b
  listed : (a == l || b == l) = true
  select : (if a = l then b else a) = other

section

variable {e : Engine} {l : Literal} {i id : Nat} {c : Clause} {w : Watch} {a b other : Literal}

theorem Reads.visit_satisfied (h : Reads e l i id c w a b other)
    (hother : e.trail.value other = .ok true) : e.visit l i = .ok (e, .stays) := by
  simp [Engine.visit, h.row, h.place, h.clause, h.watch, literalAt_eq_ok.2 h.first,
    literalAt_eq_ok.2 h.second, require, h.listed, h.select, hother, bind, Except.bind, pure,
    Except.pure]

theorem Reads.visit_falsified (h : Reads e l i id c w a b other)
    (hother : e.trail.value other = .ok false) (hrep : replacement e.trail w 0 c = .ok none)
    (hneg : e.trail.value (-other) = .ok true) : e.visit l i = .ok (e, .conflict) := by
  simp [Engine.visit, h.row, h.place, h.clause, h.watch, literalAt_eq_ok.2 h.first,
    literalAt_eq_ok.2 h.second, require, h.listed, h.select, hother, hrep, hneg, bind, Except.bind,
    pure, Except.pure]

theorem Reads.visit_forced {t : Trail} (h : Reads e l i id c w a b other)
    (hother : e.trail.value other = .ok false) (hrep : replacement e.trail w 0 c = .ok none)
    (hneg : e.trail.value (-other) = .ok false) (hpush : e.trail.push other (.forced id) = .ok t) :
    e.visit l i = .ok ({ e with trail := t }, .stays) := by
  simp [Engine.visit, h.row, h.place, h.clause, h.watch, literalAt_eq_ok.2 h.first,
    literalAt_eq_ok.2 h.second, require, h.listed, h.select, hother, hrep, hneg, hpush, bind,
    Except.bind, pure, Except.pure]

theorem Reads.visit_moved {j : Nat} {m : Literal} {v : Watch} {row : Array Nat}
    (h : Reads e l i id c w a b other) (hother : e.trail.value other = .ok false)
    (hrep : replacement e.trail w 0 c = .ok (some (j, m)))
    (hv : (if a = l then ⟨j, w.second⟩ else ⟨w.first, j⟩) = v) (hid : id < e.watches.size)
    (hswap : Bounded.swapRemove (rowOf e.watchers l) i = .ok (id, row))
    (hl : l.code < e.watchers.size) (hm : m.code < e.watchers.size) (hml : m ≠ l) :
    e.visit l i = .ok (e.relocated id v l m row, .leaves) := by
  have hset : Bounded.set e.watches id v = .ok (e.watches.setIfInBounds id v) :=
    Bounded.set_eq_ok.2 ⟨hid, rfl⟩
  have hset' : Bounded.set e.watchers l.code row = .ok (e.watchers.setIfInBounds l.code row) :=
    Bounded.set_eq_ok.2 ⟨hl, rfl⟩
  have hnew : Engine.watch (e.watchers.setIfInBounds l.code row) m id = _ :=
    watch_eq id (by simpa using hm)
  rw [rowOf_set _ hl, if_neg hml] at hnew
  simp [Engine.visit, h.row, h.place, h.clause, h.watch, literalAt_eq_ok.2 h.first,
    literalAt_eq_ok.2 h.second, require, h.listed, h.select, hother, hrep, hv, hset, hswap, hset',
    hnew, relocated, bind, Except.bind, pure, Except.pure]

end

/-- The places of the two watched literals are read in the order in which the watch has them. -/
theorem Arranged.reads {e : Engine} {l : Literal} {A B : List Nat} {id : Nat} (h : e.Arranged)
    (hrow : (rowOf e.watchers l).toList = A ++ id :: B) :
    ∃ c w a b other, (id, c) ∈ e.store.liveClauses ∧ 2 ≤ c.length ∧ w.Within c ∧
      w.Pairs c l other ∧ e.Pairs id l other ∧ Reads e l A.length id c w a b other := by
  have hid : id ∈ rowOf e.watchers l := by
    rw [← Array.mem_toList_iff, hrow]
    simp
  obtain ⟨other, hpair⟩ := (h.mem_row l id).1 hid
  have ⟨c, w, hc, hlen, hw, hp⟩ := hpair
  have hlt := h.code_lt (h.bounded hc hp.mem).2
  have hget : Bounded.get (rowOf e.watchers l) A.length = .ok id := by
    rw [Bounded.get_eq_ok, ← Array.getElem?_toList, hrow]
    simp
  obtain ⟨a, b, ha, hb, hlisted, hselect⟩ : ∃ a b, (c)[w.first]? = some a ∧ (c)[w.second]? = some b ∧
      (a == l || b == l) = true ∧ (if a = l then b else a) = other := by
    rcases hp with ⟨ha, hb⟩ | ⟨ha, hb⟩
    · exact ⟨l, other, ha, hb, by simp, by simp⟩
    · exact ⟨other, l, ha, hb, by simp, by simp [Ne.symm (h.pairs_ne hpair)]⟩
  exact ⟨c, w, a, b, other, hc, hlen, h.within id c w hc hlen hw, hp, hpair,
    Bounded.get_eq_ok.2 (rowOf_eq hlt), hget, Store.clause_of_mem hc, Bounded.get_eq_ok.2 hw, ha, hb,
    hlisted, hselect⟩

/-- If no other place has a literal that is not false, only the other watched literal is left. -/
theorem Reads.falsifies {e : Engine} {l : Literal} {i id : Nat} {c : Clause} {w : Watch}
    {a b other : Literal} (h : Reads e l i id c w a b other) (hl : -l ∈ e.trail.literals)
    (hall : ∀ j m, (c)[j]? = some m → 0 + j ≠ w.first → 0 + j ≠ w.second → -m ∈ e.trail.literals) :
    ∀ k ∈ c, k ≠ other → -k ∈ e.trail.literals := by
  intro k hk hko
  by_cases hkl : k = l
  · exact hkl ▸ hl
  obtain ⟨j, hj⟩ := List.mem_iff_getElem?.1 hk
  apply hall j k hj
  · intro hjw
    rw [Nat.zero_add] at hjw
    obtain rfl : a = k := Option.some.inj (h.first.symm.trans (hjw ▸ hj))
    exact hko (by rw [← h.select, if_neg hkl])
  · intro hjw
    rw [Nat.zero_add] at hjw
    obtain rfl : b = k := Option.some.inj (h.second.symm.trans (hjw ▸ hj))
    have hal : a = l := by simpa [hkl] using h.listed
    exact hko (by rw [← h.select, if_pos hal])

/-- A literal at another place can take over the watch of `l`. -/
theorem Reads.replaced {e : Engine} {l : Literal} {i id j : Nat} {c : Clause} {w : Watch}
    {a b other m : Literal} (h : Reads e l i id c w a b other) (hnodup : c.Nodup)
    (hwithin : w.Within c) (hj : (c)[j]? = some m) (hj1 : j ≠ w.first) (hj2 : j ≠ w.second) :
    m ≠ l ∧ m ≠ other ∧
      Watch.Pairs (if a = l then ⟨j, w.second⟩ else ⟨w.first, j⟩) c m other ∧
      Watch.Within (if a = l then ⟨j, w.second⟩ else ⟨w.first, j⟩) c := by
  have hjlt : j < c.length := (List.getElem?_eq_some_iff.1 hj).1
  have hma : m ≠ a := fun he => hj1 (Watch.place_inj hnodup hj (he ▸ h.first))
  have hmb : m ≠ b := fun he => hj2 (Watch.place_inj hnodup hj (he ▸ h.second))
  have hml : m ≠ l := by
    rcases Bool.or_eq_true_iff.1 h.listed with he | he
    · exact beq_iff_eq.1 he ▸ hma
    · exact beq_iff_eq.1 he ▸ hmb
  rw [← h.select]
  refine ⟨hml, ?_⟩
  split
  · exact ⟨hmb, .inl ⟨hj, h.second⟩, hjlt, hwithin.2.1, hj2⟩
  · exact ⟨hma, .inr ⟨h.first, hj⟩, hwithin.1, hjlt, Ne.symm hj1⟩

/-- What a visit of the clause `id` in the list `A ++ id :: B` of a false literal can do. -/
inductive Visited (e : Engine) (l : Literal) (A : List Nat) (id : Nat) (B : List Nat) :
    Engine → Visit → Prop where
  | satisfied {other : Literal} : e.Pairs id l other → other ∈ e.trail.literals →
      Visited e l A id B e .stays
  | moved {c : Clause} {v : Watch} {other m : Literal} {row : Array Nat} {C : List Nat} :
      -m ∉ e.trail.literals → Relocation e id c v l other m row A B C →
      Visited e l A id B (e.relocated id v l m row) .leaves
  | forced {c : Clause} {other : Literal} {t : Trail} : (id, c) ∈ e.store.liveClauses →
      2 ≤ c.length → e.Pairs id l other → other ∈ c →
      (∀ k ∈ c, k ≠ other → -k ∈ e.trail.literals) → e.trail.push other (.forced id) = .ok t →
      t.Faithful e.maxVar → t.literals = e.trail.literals ++ [other] →
      Visited e l A id B { e with trail := t } .stays
  | falsified {c : Clause} : (id, c) ∈ e.store.liveClauses → (∀ k ∈ c, -k ∈ e.trail.literals) →
      Visited e l A id B e .conflict

/-- A visit in the list of a false literal does not fault. -/
theorem Running.visit {e : Engine} {l : Literal} {A B : List Nat} {id : Nat} (h : e.Running)
    (hl : -l ∈ e.trail.literals) (hrow : (rowOf e.watchers l).toList = A ++ id :: B) :
    ∃ f v, e.visit l A.length = .ok (f, v) ∧ Visited e l A id B f v := by
  obtain ⟨c, w, a, b, other, hc, hlen, hwithin, hp, hpair, hreads⟩ := h.toArranged.reads hrow
  have hbound : ∀ k ∈ c, k.isValid = true ∧ k.var ≤ e.maxVar := fun k hk => h.bounded hc hk
  have hotherc : other ∈ c := hp.symm.mem
  have hvalue := h.faithful.value (hbound other hotherc).2
  have hvalue' := h.faithful.value (l := -other) (hbound other hotherc).2
  by_cases hother : other ∈ e.trail.literals
  · rw [decide_eq_true hother] at hvalue
    exact ⟨e, .stays, hreads.visit_satisfied hvalue, .satisfied hpair hother⟩
  rw [decide_eq_false hother] at hvalue
  rcases replacement_cases h.faithful w (fun k hk => (hbound k hk).2) 0 with
    ⟨j, m, hrep, hj, hj1, hj2, hm⟩ | ⟨hrep, hall⟩
  · rw [Nat.zero_add] at hrep hj1 hj2
    obtain ⟨hml, hmo, hvp, hvw⟩ := hreads.replaced (h.indexed.nodup _ hc) hwithin hj hj1 hj2
    have hmc : m ∈ c := List.mem_of_getElem? hj
    obtain ⟨row, C, hswap, hrow', hperm⟩ := Bounded.swapRemove_append hrow
    have hid : id < e.watches.size := h.watches_size.symm ▸ Store.lt_size_of_mem hc
    exact ⟨_, .leaves, hreads.visit_moved hvalue hrep rfl hid hswap
      (h.code_lt (hbound l hp.mem).2) (h.code_lt (hbound m hmc).2) hml,
      .moved hm ⟨hc, hpair, hmc, hml, hmo, hvp, hvw, hrow, hrow', hperm⟩⟩
  · have hfalse := hreads.falsifies hl hall
    by_cases hneg : -other ∈ e.trail.literals
    · rw [decide_eq_true hneg] at hvalue'
      refine ⟨e, .conflict, hreads.visit_falsified hvalue hrep hvalue', .falsified hc fun k hk => ?_⟩
      by_cases hko : k = other
      · exact hko ▸ hneg
      · exact hfalse k hk hko
    · rw [decide_eq_false hneg] at hvalue'
      obtain ⟨t, hpush, hft, _, hlits⟩ := h.faithful.push (.forced id) (hbound other hotherc).1
        (hbound other hotherc).2 ⟨hother, hneg⟩
      exact ⟨_, .stays, hreads.visit_forced hvalue hrep hvalue' hpush,
        .forced hc hlen hpair hotherc hfalse hpush hft hlits⟩

end ClausalProof.Engine
