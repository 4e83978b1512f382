import ClausalProof.Clause
import Mathlib.Data.List.Perm.Subperm
import Mathlib.Data.List.Nodup

set_option autoImplicit false

/-!
Clauses as sets of literals. Keys are equal exactly for clauses with the same literals, the kept
first occurrences are the same set without repetition, and a resolvent depends on its sides only
through their sets.
-/
namespace ClausalProof

namespace Literal

theorem neg_inj {l m : Literal} : -l = -m ↔ l = m :=
  ⟨fun h => by rw [← neg_neg l, h, neg_neg], fun h => by rw [h]⟩

theorem neg_eq_iff {l m : Literal} : -l = m ↔ l = -m := by
  rw [← neg_inj, neg_neg]

theorem neg_ne_self (l : Literal) : -l ≠ l := by
  intro h
  have hb : (!l.negative) = l.negative := congrArg Literal.negative h
  cases hl : l.negative <;> simp [hl] at hb

@[simp] theorem isValid_neg (l : Literal) : (-l).isValid = l.isValid := rfl

theorem eq_or_eq_neg {l m : Literal} (h : l.var = m.var) : l = m ∨ l = -m := by
  rcases l with ⟨v, a⟩
  rcases m with ⟨w, b⟩
  cases h
  cases a <;> cases b <;> simp [Neg.neg, neg]

theorem code_ofCode (n : Nat) : (ofCode n).code = n := by
  have hsign : (n % 2 == 1).toNat = n % 2 := by
    rcases Nat.mod_two_eq_zero_or_one n with h | h <;> simp [h]
  rw [ofCode, code, hsign]
  exact Nat.div_add_mod n 2

theorem code_lt_literalSlots {l : Literal} {n : Nat} : l.code < literalSlots n ↔ l.var ≤ n := by
  have hsign := Bool.toNat_le l.negative
  rw [code, literalSlots]
  omega

theorem isValid_iff {l : Literal} : l.isValid = true ↔ 1 ≤ l.var ∧ l.var ≤ maxVariable := by
  rw [isValid, Bool.and_eq_true, decide_eq_true_eq, decide_eq_true_eq]

theorem isZero_of_isValid {l : Literal} (h : l.isValid = true) : l.isZero = false := by
  have hv : l.var ≠ 0 := Nat.ne_of_gt (isValid_iff.1 h).1
  simp [isZero, hv]

/-- The number that writes a valid literal denotes it. -/
theorem ofInt_toInt {l : Literal} (h : l.isValid = true) : ofInt l.toInt = l := by
  have hv := (isValid_iff.1 h).1
  rcases l with ⟨v, b⟩
  cases b <;> simp [ofInt, toInt]
  exact hv

theorem natAbs_toInt (l : Literal) : l.toInt.natAbs = l.var := by
  cases hl : l.negative <;> simp [toInt, hl]

end Literal

namespace Clause

theorem mem_insertCode {k n : Nat} {ks : List Nat} : n ∈ insertCode k ks ↔ n = k ∨ n ∈ ks := by
  induction ks with
  | nil => simp [insertCode]
  | cons m ms ih =>
    unfold insertCode
    split
    · simp
    · split
      · rename_i he
        subst he
        simp
      · simp only [List.mem_cons, ih]
        tauto

theorem pairwise_insertCode {k : Nat} {ks : List Nat} (h : ks.Pairwise (· < ·)) :
    (insertCode k ks).Pairwise (· < ·) := by
  induction ks with
  | nil => simp [insertCode]
  | cons m ms ih =>
    obtain ⟨hm, hms⟩ := List.pairwise_cons.1 h
    unfold insertCode
    split
    · rename_i hk
      refine List.pairwise_cons.2 ⟨?_, h⟩
      intro n hn
      rcases List.mem_cons.1 hn with rfl | hn
      · exact hk
      · exact Nat.lt_trans hk (hm n hn)
    · split
      · exact h
      · refine List.pairwise_cons.2 ⟨?_, ih hms⟩
        intro n hn
        rcases mem_insertCode.1 hn with rfl | hn
        · omega
        · exact hm n hn

theorem code_mem_key {c : Clause} {l : Literal} : l.code ∈ key c ↔ l ∈ c := by
  induction c with
  | nil => simp [key]
  | cons m c ih =>
    change l.code ∈ insertCode m.code (key c) ↔ _
    rw [mem_insertCode, ih, Literal.code_inj, List.mem_cons]

theorem exists_of_mem_key {c : Clause} {n : Nat} (h : n ∈ key c) : ∃ l : Literal, l.code = n := by
  induction c with
  | nil => simp [key] at h
  | cons m c ih =>
    rcases mem_insertCode.1 h with rfl | h
    · exact ⟨m, rfl⟩
    · exact ih h

theorem pairwise_key (c : Clause) : (key c).Pairwise (· < ·) := by
  induction c with
  | nil => exact List.Pairwise.nil
  | cons m c ih => exact pairwise_insertCode ih

theorem key_eq_key {c d : Clause} : key c = key d ↔ ∀ l, l ∈ c ↔ l ∈ d := by
  constructor
  · intro h l
    rw [← code_mem_key, h, code_mem_key]
  · intro h
    have hmem : ∀ n, n ∈ key c ↔ n ∈ key d := by
      intro n
      constructor
      · intro hn
        obtain ⟨l, rfl⟩ := exists_of_mem_key hn
        exact code_mem_key.2 ((h l).1 (code_mem_key.1 hn))
      · intro hn
        obtain ⟨l, rfl⟩ := exists_of_mem_key hn
        exact code_mem_key.2 ((h l).2 (code_mem_key.1 hn))
    have hnodup (e : Clause) : (key e).Nodup := (pairwise_key e).imp (fun hlt => Nat.ne_of_lt hlt)
    refine List.Perm.eq_of_pairwise ?_ (pairwise_key c) (pairwise_key d)
      ((List.perm_ext_iff_of_nodup (hnodup c) (hnodup d)).2 hmem)
    intro a b _ _ hab hba
    omega

theorem nodup_eraseDups (c : Clause) : c.eraseDups.Nodup := by
  -- `eraseDups` recurses on a filtered tail, so the induction is on the length
  induction hn : c.length using Nat.strongRecOn generalizing c with
  | ind n ih =>
    cases c with
    | nil => simp
    | cons l c =>
      rw [List.eraseDups_cons, List.nodup_cons]
      have hlen := List.length_filter_le (fun m => !m == l) c
      refine ⟨?_, ih _ ?_ _ rfl⟩
      · rw [List.mem_eraseDups]
        simp
      · simp only [List.length_cons] at hn
        omega

theorem nodup_map_eraseDups (f : Formula) : ∀ c ∈ f.map List.eraseDups, c.Nodup := by
  intro c hc
  obtain ⟨d, _, rfl⟩ := List.mem_map.1 hc
  exact nodup_eraseDups d

theorem eraseDups_of_nodup {c : Clause} (h : c.Nodup) : c.eraseDups = c := by
  induction c with
  | nil => rfl
  | cons l c ih =>
    obtain ⟨hl, hc⟩ := List.nodup_cons.1 h
    have hfilter : c.filter (fun m => !m == l) = c := by
      refine List.filter_eq_self.2 fun m hm => ?_
      have hne : m ≠ l := fun he => hl (he ▸ hm)
      simpa using hne
    rw [List.eraseDups_cons, hfilter, ih hc]

theorem eraseDups_append_cons {c d : Clause} {l : Literal} (h : l ∈ c) :
    (c ++ l :: d).eraseDups = (c ++ d).eraseDups := by
  have hremove : (l :: d).removeAll c = d.removeAll c := by simp [List.removeAll, h]
  rw [List.eraseDups_append, List.eraseDups_append, hremove]

theorem key_eraseDups (c : Clause) : key c.eraseDups = key c :=
  key_eq_key.2 fun _ => List.mem_eraseDups

theorem eraseDups_sublist (c : Clause) : c.eraseDups.Sublist c := by
  induction hn : c.length using Nat.strongRecOn generalizing c with
  | ind n ih =>
    cases c with
    | nil => simp
    | cons l c =>
      rw [List.eraseDups_cons]
      have hlen := List.length_filter_le (fun m => !m == l) c
      simp only [List.length_cons] at hn
      exact ((ih _ (by omega) _ rfl).trans List.filter_sublist).cons_cons l

theorem two_le_countP {c : Clause} (hc : c.Nodup) (p : Literal → Bool) :
    2 ≤ c.countP p ↔ ∃ l ∈ c, ∃ m ∈ c, l ≠ m ∧ p l = true ∧ p m = true := by
  rw [List.countP_eq_length_filter]
  constructor
  · intro h
    have hnodup : (c.filter p).Nodup := hc.filter p
    have hmem : ∀ l ∈ c.filter p, l ∈ c ∧ p l = true := fun l hl => List.mem_filter.1 hl
    generalize c.filter p = found at h hnodup hmem
    match found with
    | [] => simp at h
    | [_] => simp at h
    | l :: m :: rest =>
      have hne : l ≠ m := by
        rintro rfl
        simp at hnodup
      obtain ⟨hl, hpl⟩ := hmem l (by simp)
      obtain ⟨hm, hpm⟩ := hmem m (by simp)
      exact ⟨l, hl, m, hm, hne, hpl, hpm⟩
  · rintro ⟨l, hl, m, hm, hne, hpl, hpm⟩
    have hsub : [l, m] ⊆ c.filter p := by
      simp [List.mem_filter, hl, hm, hpl, hpm]
    exact (List.subperm_of_subset (by simp [hne]) hsub).length_le

theorem mem_resolve {c d : Clause} {p l : Literal} :
    l ∈ resolve c p d ↔ (l ∈ c ∧ l ≠ p) ∨ (l ∈ d ∧ l ≠ -p) := by
  simp [resolve, List.mem_eraseDups, List.mem_append, List.mem_filter]

theorem isTautology_iff {c : Clause} : c.isTautology = true ↔ ∃ l ∈ c, -l ∈ c := by
  simp [isTautology]

theorem isTautology_congr {c d : Clause} (h : ∀ l, l ∈ c ↔ l ∈ d) :
    c.isTautology = d.isTautology := by
  rw [Bool.eq_iff_iff, isTautology_iff, isTautology_iff]
  simp [h]

theorem var_le_maxVar {c : Clause} {l : Literal} (hl : l ∈ c) : l.var ≤ c.maxVar := by
  induction c with
  | nil => simp at hl
  | cons m c ih =>
    change l.var ≤ max m.var (maxVar c)
    rcases List.mem_cons.1 hl with rfl | hl
    · exact Nat.le_max_left _ _
    · exact Nat.le_trans (ih hl) (Nat.le_max_right _ _)

theorem maxVar_le {c : Clause} {n : Nat} (h : ∀ l ∈ c, l.var ≤ n) : c.maxVar ≤ n := by
  induction c with
  | nil => exact Nat.zero_le n
  | cons l c ih =>
    exact Nat.max_le.2 ⟨h l List.mem_cons_self, ih fun m hm => h m (List.mem_cons_of_mem _ hm)⟩

end Clause

theorem Formula.var_le_maxVar {f : Formula} {c : Clause} {l : Literal} (hc : c ∈ f) (hl : l ∈ c) :
    l.var ≤ f.maxVar := by
  induction f with
  | nil => simp at hc
  | cons d f ih =>
    change l.var ≤ max (Clause.maxVar d) (maxVar f)
    rcases List.mem_cons.1 hc with rfl | hc
    · exact Nat.le_trans (Clause.var_le_maxVar hl) (Nat.le_max_left _ _)
    · exact Nat.le_trans (ih hc) (Nat.le_max_right _ _)

theorem Formula.maxVar_le {f : Formula} {n : Nat} (h : ∀ c ∈ f, ∀ l ∈ c, l.var ≤ n) :
    f.maxVar ≤ n := by
  induction f with
  | nil => exact Nat.zero_le n
  | cons c f ih =>
    exact Nat.max_le.2 ⟨Clause.maxVar_le (h c List.mem_cons_self),
      ih fun d hd => h d (List.mem_cons_of_mem _ hd)⟩

theorem Proof.var_le_maxVar {p : Proof} {step : Step} {l : Literal} (hs : step ∈ p)
    (hl : l ∈ step.literals) : l.var ≤ p.maxVar :=
  Formula.var_le_maxVar (List.mem_map_of_mem hs) hl

end ClausalProof
