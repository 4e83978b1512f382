import ClausalProof.Proofs.Plain

set_option autoImplicit false

/-!
The tables of a trail show what its entries list (`Trail.Faithful`), after every assignment and every
undoing. Read through them, a scan of the store for unit clauses follows the plain checker literal by
literal.
-/
namespace ClausalProof.Trail

/-- The tables for the variables up to `n` say which literals are listed and where. -/
structure Faithful (n : Nat) (t : Trail) : Prop where
  truth_size : t.truth.size = Literal.literalSlots n
  position_size : t.position.size = Literal.literalSlots n
  truth : ∀ l : Literal, l.var ≤ n → t.truth[l.code]? = some (decide (l ∈ t.literals))
  position : ∀ l : Literal, l.var ≤ n → t.position[l.code]? = some (t.literals.idxOf? l)
  valid : ∀ l ∈ t.literals, l.isValid = true
  bounded : ∀ l ∈ t.literals, l.var ≤ n
  consistent : Consistent t.literals
  nodup : t.literals.Nodup

theorem literals_length (t : Trail) : t.literals.length = t.size := by
  simp [literals, size]

theorem literals_eq_nil {t : Trail} : t.literals = [] ↔ t.entries = #[] := by
  simp [literals]

theorem literals_push {t u : Trail} {l : Literal} {reason : Reason} (h : t.push l reason = .ok u) :
    u.literals = t.literals ++ [l] := by
  obtain ⟨_, _, _, _, _, rfl⟩ := push_eq_ok.1 h
  simp [literals]

theorem faithful_empty (n : Nat) : (empty n).Faithful n := by
  have hslot : ∀ l : Literal, l.var ≤ n → l.code < Literal.literalSlots n :=
    fun l hl => Literal.code_lt_literalSlots.2 hl
  refine ⟨by simp [empty], by simp [empty], ?_, ?_, ?_, ?_, ?_, ?_⟩
  · intro l hl
    simp [empty, literals, hslot l hl]
  · intro l hl
    simp [empty, literals, hslot l hl]
  all_goals simp [empty, literals, Consistent]

namespace Faithful

variable {n : Nat} {t u : Trail} {l : Literal}

theorem value (h : t.Faithful n) (hl : l.var ≤ n) : t.value l = .ok (decide (l ∈ t.literals)) := by
  rw [Trail.value, Bounded.get_eq_ok]
  exact h.truth l hl

/-- A valid literal that is open can be assigned. -/
theorem push (h : t.Faithful n) (reason : Reason) (hv : l.isValid = true) (hl : l.var ≤ n)
    (hopen : Open t.literals l) :
    ∃ u, t.push l reason = .ok u ∧ u.Faithful n ∧ u.entries = t.entries.push ⟨l, reason⟩ ∧
      u.literals = t.literals ++ [l] := by
  have hslot : l.code < Literal.literalSlots n := Literal.code_lt_literalSlots.2 hl
  have hlits : (⟨t.truth.setIfInBounds l.code true, t.position.setIfInBounds l.code (some t.size),
      t.entries.push ⟨l, reason⟩⟩ : Trail).literals = t.literals ++ [l] := by
    simp [literals]
  refine ⟨_, push_eq_ok.2 ⟨hv, ?_, ?_, ?_, ?_, rfl⟩, ?_, rfl, hlits⟩
  · rw [h.value hl, decide_eq_false hopen.1]
  · rw [h.value (by simpa using hl), decide_eq_false hopen.2]
  · rw [h.truth_size]
    exact hslot
  · rw [h.position_size]
    exact hslot
  constructor
  case truth_size => simp [h.truth_size]
  case position_size => simp [h.position_size]
  case truth =>
    intro m hm
    rw [hlits, Array.getElem?_setIfInBounds]
    by_cases he : l = m
    · subst he
      simp [h.truth_size, hslot]
    · rw [if_neg (fun hc => he (Literal.code_inj.1 hc)), h.truth m hm]
      simp [Ne.symm he]
  case position =>
    intro m hm
    rw [hlits, Array.getElem?_setIfInBounds]
    by_cases he : l = m
    · subst he
      have hnone : t.literals.findIdx? (· == l) = none :=
        List.findIdx?_eq_none_iff.2 fun m hm => beq_eq_false_iff_ne.2 fun he => hopen.1 (he ▸ hm)
      simp [h.position_size, hslot, List.idxOf?, List.findIdx?_append, hnone, literals_length]
    · rw [if_neg (fun hc => he (Literal.code_inj.1 hc)), h.position m hm]
      simp [List.idxOf?, List.findIdx?_append, List.findIdx?_singleton, he]
  all_goals rw [hlits]
  case valid =>
    intro m hm
    rcases List.mem_append.1 hm with hm | hm
    · exact h.valid m hm
    · exact List.mem_singleton.1 hm ▸ hv
  case bounded =>
    intro m hm
    rcases List.mem_append.1 hm with hm | hm
    · exact h.bounded m hm
    · exact List.mem_singleton.1 hm ▸ hl
  case consistent => exact h.consistent.append hopen
  case nodup =>
    rw [List.nodup_append]
    refine ⟨h.nodup, List.nodup_singleton l, ?_⟩
    rintro m hm k hk rfl
    exact hopen.1 (List.mem_singleton.1 hk ▸ hm)

/-- The newest assignment can be undone: its literal has a place in the tables. -/
theorem pop (h : t.Faithful n) :
    ∃ u, t.pop = .ok u ∧ u.Faithful n ∧ u.literals = t.literals.dropLast := by
  cases hback : t.entries.back? with
  | none =>
    have hnil : t.entries = #[] := by simpa using hback
    exact ⟨t, by simp [Trail.pop, hback], h, by simp [literals, hnil]⟩
  | some e =>
    have hlits : t.literals = t.entries.pop.toList.map Entry.literal ++ [e.literal] := by
      have hlist := List.dropLast_append_getLast? e (by simpa using hback : e ∈ t.entries.toList.getLast?)
      rw [literals, ← hlist]
      simp
    have hslot : e.literal.code < Literal.literalSlots n :=
      Literal.code_lt_literalSlots.2 (h.bounded _ (by rw [hlits]; simp))
    have hpop : t.pop = .ok ⟨t.truth.setIfInBounds e.literal.code false,
        t.position.setIfInBounds e.literal.code none, t.entries.pop⟩ := by
      simp [Trail.pop, hback, Bounded.set, h.truth_size, h.position_size, hslot, bind, Except.bind,
        pure, Except.pure]
    refine ⟨_, hpop, ?_, by rw [hlits, List.dropLast_concat]; rfl⟩
    generalize hrest : t.entries.pop.toList.map Entry.literal = rest at hlits
    have hnodup : (rest ++ [e.literal]).Nodup := hlits ▸ h.nodup
    have hnot : e.literal ∉ rest := by
      intro hm
      exact (List.nodup_append.1 hnodup).2.2 _ hm _ (List.mem_singleton.2 rfl) rfl
    have hsub : ∀ l ∈ rest, l ∈ t.literals := fun l hl => hlits ▸ List.mem_append_left _ hl
    constructor
    case truth_size => simp [h.truth_size]
    case position_size => simp [h.position_size]
    all_goals simp only [literals, hrest]
    case truth =>
      intro m hm
      rw [Array.getElem?_setIfInBounds]
      by_cases he : e.literal = m
      · subst he
        simp [h.truth_size, hslot, hnot]
      · rw [if_neg (fun hc => he (Literal.code_inj.1 hc)), h.truth m hm, hlits]
        simp [Ne.symm he]
    case position =>
      intro m hm
      rw [Array.getElem?_setIfInBounds]
      by_cases he : e.literal = m
      · subst he
        have hnone := List.idxOf?_eq_none_iff.2 hnot
        simp [h.position_size, hslot, hnone]
      · rw [if_neg (fun hc => he (Literal.code_inj.1 hc)), h.position m hm, hlits]
        simp [List.idxOf?, List.findIdx?_append, List.findIdx?_singleton, he]
    case valid => exact fun m hm => h.valid m (hsub m hm)
    case bounded => exact fun m hm => h.bounded m (hsub m hm)
    case consistent => exact fun m hm hn => h.consistent m (hsub m hm) (hsub _ hn)
    case nodup => exact (List.nodup_append.1 hnodup).1

theorem unwind (h : t.Faithful n) (k : Nat) :
    ∃ u, t.unwind k = .ok u ∧ u.Faithful n ∧ u.literals = t.literals.take (t.literals.length - k) := by
  induction k generalizing t with
  | zero => exact ⟨t, rfl, h, by simp⟩
  | succ k ih =>
    obtain ⟨u, hpop, hu, hlits⟩ := h.pop
    obtain ⟨v, hunwind, hv, hl⟩ := ih hu
    refine ⟨v, ?_, hv, ?_⟩
    · simpa [Trail.unwind, hpop, bind, Except.bind] using hunwind
    · rw [hl, hlits, List.length_dropLast, List.dropLast_eq_take, List.take_take]
      congr 1
      omega

/-- A faithful trail without entries is the empty one: nothing is left behind in the tables. -/
theorem eq_empty (h : t.Faithful n) (hnil : t.literals = []) : t = Trail.empty n := by
  have hcode : ∀ i, i < Literal.literalSlots n → ∃ l : Literal, l.var ≤ n ∧ l.code = i := by
    intro i hi
    have hc := Literal.code_ofCode i
    exact ⟨Literal.ofCode i, Literal.code_lt_literalSlots.1 (hc.symm ▸ hi), hc⟩
  have htruth : t.truth = (Trail.empty n).truth := by
    refine Array.ext (by simp [h.truth_size, Trail.empty]) fun i hi _ => ?_
    obtain ⟨l, hl, rfl⟩ := hcode i (h.truth_size ▸ hi)
    have ht := h.truth l hl
    rw [Array.getElem?_eq_getElem hi, hnil] at ht
    simpa [Trail.empty] using ht
  have hposition : t.position = (Trail.empty n).position := by
    refine Array.ext (by simp [h.position_size, Trail.empty]) fun i hi _ => ?_
    obtain ⟨l, hl, rfl⟩ := hcode i (h.position_size ▸ hi)
    have ht := h.position l hl
    rw [Array.getElem?_eq_getElem hi, hnil] at ht
    simpa [Trail.empty] using ht
  obtain ⟨truth, position, entries⟩ := t
  have hentries := literals_eq_nil.1 hnil
  dsimp only at htruth hposition hentries
  rw [htruth, hposition, hentries]
  rfl

theorem shrinkTo_zero (h : t.Faithful n) : t.shrinkTo 0 = .ok (Trail.empty n) := by
  obtain ⟨u, hunwind, hu, hl⟩ := h.unwind t.size
  have hempty : u = Trail.empty n := hu.eq_empty (by rw [hl, literals_length]; simp)
  rw [Trail.shrinkTo, Nat.sub_zero, hunwind, hempty]

/-- Of the two literals of a variable at most one is listed. -/
theorem nodup_vars (h : t.Faithful n) : (t.literals.map Literal.var).Nodup := by
  refine List.Nodup.map_on ?_ h.nodup
  intro l hl m hm hvar
  rcases Literal.eq_or_eq_neg hvar with rfl | rfl
  · rfl
  · exact absurd hl (h.consistent m hm)

theorem satisfies (h : t.Faithful n) {c : Clause} (hc : ∀ l ∈ c, l.var ≤ n) :
    t.satisfies c = .ok (c.any (t.literals.contains ·)) := by
  induction c with
  | nil => rfl
  | cons l c ih =>
    rw [Trail.satisfies, h.value (hc l List.mem_cons_self)]
    rw [ih fun m hm => hc m (List.mem_cons_of_mem _ hm)]
    by_cases hl : l ∈ t.literals <;> simp [hl, bind, Except.bind, pure, Except.pure]

theorem isUnassigned (h : t.Faithful n) (hl : l.var ≤ n) :
    t.isUnassigned l = .ok (!t.literals.contains l && !t.literals.contains (-l)) := by
  rw [Trail.isUnassigned, h.value hl, h.value (by simpa using hl)]
  by_cases hm : l ∈ t.literals <;> simp [hm, bind, Except.bind, pure, Except.pure]

theorem unassignedCount (h : t.Faithful n) {c : Clause} (hc : ∀ l ∈ c, l.var ≤ n) :
    t.unassignedCount c =
      .ok (c.countP fun l => !t.literals.contains l && !t.literals.contains (-l)) := by
  induction c with
  | nil => rfl
  | cons l c ih =>
    rw [Trail.unassignedCount, h.isUnassigned (hc l List.mem_cons_self)]
    rw [ih fun m hm => hc m (List.mem_cons_of_mem _ hm), List.countP_cons]
    cases !t.literals.contains l && !t.literals.contains (-l) <;> rfl

theorem isStable (h : t.Faithful n) {c : Clause} (hc : ∀ l ∈ c, l.var ≤ n) (hn : c.Nodup) :
    ∃ b, t.isStable c = .ok b ∧ (b = true ↔ Stable t.literals c) := by
  refine ⟨_, by rw [Trail.isStable, h.satisfies hc, h.unassignedCount hc]; rfl, ?_⟩
  rw [Bool.or_eq_true, decide_eq_true_eq, Clause.two_le_countP hn]
  simp [Stable, Open]

theorem unitLiteral (h : t.Faithful n) (found : Option Literal) {c : Clause}
    (hc : ∀ l ∈ c, l.var ≤ n) :
    t.unitLiteral found c = .ok (if c.any (t.literals.contains ·) then none else
      match found.toList ++ c.filter fun l => !t.literals.contains (-l) with
      | [l] => some l
      | _ => none) := by
  induction c generalizing found with
  | nil => cases found <;> rfl
  | cons l c ih =>
    have ih := fun found => ih found fun m hm => hc m (List.mem_cons_of_mem _ hm)
    have hl := hc l List.mem_cons_self
    rw [Trail.unitLiteral, h.value hl, h.value (by simpa using hl), ih, ih]
    by_cases htrue : l ∈ t.literals
    · simp [htrue, bind, Except.bind, pure, Except.pure]
    by_cases hfalse : -l ∈ t.literals
    · simp [htrue, hfalse, bind, Except.bind]
    · cases found <;> simp [htrue, hfalse, bind, Except.bind, pure, Except.pure]

theorem unitLiteral_none (h : t.Faithful n) {c : Clause} (hc : ∀ l ∈ c, l.var ≤ n) :
    t.unitLiteral none c = .ok (Plain.inspect t.literals c).literal? := by
  rw [h.unitLiteral none hc, Plain.inspect]
  split
  · rfl
  · simp only [Option.toList_none, List.nil_append]
    rcases c.filter (fun l => !t.literals.contains (-l)) with _ | ⟨l, _ | ⟨m, free⟩⟩ <;> rfl

theorem nextUnit (h : t.Faithful n) {xs : List (Nat × Clause)}
    (hxs : ∀ x ∈ xs, ∀ l ∈ x.2, l.var ≤ n) :
    t.nextUnit xs =
      .ok (xs.findSome? fun x => (Plain.inspect t.literals x.2).literal?.map fun l => (x.1, l)) := by
  induction xs with
  | nil => rfl
  | cons x xs ih =>
    rw [Trail.nextUnit, h.unitLiteral_none (hxs x List.mem_cons_self), List.findSome?_cons]
    rw [ih fun y hy => hxs y (List.mem_cons_of_mem _ hy)]
    cases (Plain.inspect t.literals x.2).literal? <;> rfl

end Faithful

theorem saturate_push {t u : Trail} {xs : List (Nat × Clause)} {id : Nat} {l : Literal}
    (h : t.nextUnit xs = .ok (some (id, l))) (hu : t.push l (.forced id) = .ok u) :
    t.saturate xs = u.saturate xs := by
  rw [saturate, h]
  dsimp only
  split
  · rename_i fault he
    rw [hu] at he
    cases he
  · rename_i u' he
    rw [hu] at he
    cases he
    rfl

theorem findSome?_of_scan_unit {T : List Literal} {xs : List (Nat × Clause)} {l : Literal}
    (h : Plain.scan T (xs.map Prod.snd) = .unit l) :
    ∃ id, xs.findSome? (fun x => (Plain.inspect T x.2).literal?.map fun l => (x.1, l)) =
      some (id, l) := by
  induction xs with
  | nil => simp [Plain.scan] at h
  | cons x xs ih =>
    rw [List.map_cons, Plain.scan] at h
    rw [List.findSome?_cons]
    split at h
    · rename_i hx
      obtain ⟨id, hid⟩ := ih h
      exact ⟨id, by simpa [hx, Plain.Finding.literal?] using hid⟩
    · exact ⟨x.1, by simp [h, Plain.Finding.literal?]⟩

/-- The scan for unit clauses goes where the plain checker goes, as long as that meets no conflict. -/
theorem Faithful.saturate {n : Nat} {t : Trail} {xs : List (Nat × Clause)} {U : List Literal}
    (h : t.Faithful n) (hxs : ∀ x ∈ xs, ∀ l ∈ x.2, l.isValid = true ∧ l.var ≤ n)
    (hp : Plain.propagate (xs.map Prod.snd) t.literals = some U) :
    ∃ u, t.saturate xs = .ok u ∧ u.Faithful n ∧ u.literals = U := by
  have hvar : ∀ x ∈ xs, ∀ l ∈ x.2, l.var ≤ n := fun x hx l hl => (hxs x hx l hl).2
  generalize hT : t.literals = T at hp
  fun_induction Plain.propagate (xs.map Prod.snd) T generalizing t with
  | case1 T hscan => simp at hp
  | case2 T hscan =>
    subst hT
    have hnone : t.nextUnit xs = .ok none := by
      rw [h.nextUnit hvar, List.findSome?_eq_none_iff.2]
      intro x hx
      rw [Plain.scan_nothing hscan x.2 (List.mem_map_of_mem hx)]
      rfl
    rw [Trail.saturate, hnone]
    exact ⟨t, rfl, h, by simpa using hp⟩
  | case3 T l hscan ih =>
    subst hT
    obtain ⟨c, hc, hl⟩ := Plain.exists_of_scan hscan (by simp)
    obtain ⟨x, hx, rfl⟩ := List.mem_map.1 hc
    obtain ⟨hlx, hopen, _⟩ := Plain.inspect_unit hl
    obtain ⟨id, hid⟩ := findSome?_of_scan_unit hscan
    have hsome : t.nextUnit xs = .ok (some (id, l)) := by rw [h.nextUnit hvar, hid]
    obtain ⟨u, hu, hfu, _, hlits⟩ :=
      h.push (.forced id) (hxs x hx l hlx).1 (hxs x hx l hlx).2 hopen
    rw [saturate_push hsome hu]
    exact ih hfu hlits hp

end ClausalProof.Trail
