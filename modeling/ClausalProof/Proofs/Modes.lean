import ClausalProof.Proofs.Acceptance

set_option autoImplicit false

/-!
Full proofs and derivations. A full run stops at the first empty clause that it accepts, a derivation
runs to the end of the proof. The main statement says that a full proof is accepted exactly if some
step adds the empty clause and the steps up to it, deletions of earlier empty clauses among them, are
accepted as a derivation.
-/
namespace ClausalProof

namespace Plain

variable {cs accepted : List Clause} {i : Nat} {p : Proof}

theorem unopposed_of_advance (h : (advance .derivation cs accepted i p).outcome = .valid) :
    Unopposed cs p := by
  induction p generalizing cs accepted i with
  | nil => trivial
  | cons step p ih =>
    cases step with
    | delete c => exact ih h
    | add c =>
      rw [advance] at h
      split at h
      · cases h
      · rename_i hc
        exact ⟨hc, ih (by simpa using h)⟩

theorem outcome_derivation_iff :
    (advance .derivation cs accepted i p).outcome = .valid ↔ Unopposed cs p := by
  refine ⟨unopposed_of_advance, fun h => ?_⟩
  rw [h.advance_derivation]
  rfl

/-- A full run that ends well stops at the first step that adds the empty clause. -/
theorem exists_of_advance_full (h : (advance .full cs accepted i p).outcome = .valid) :
    ∃ q r, p = q ++ .add [] :: r ∧ Step.add [] ∉ q ∧ Unopposed cs (q ++ [.add []]) := by
  induction p generalizing cs accepted i with
  | nil => cases h
  | cons step p ih =>
    cases step with
    | delete c =>
      obtain ⟨q, r, rfl, hfree, hq⟩ := ih h
      exact ⟨.delete c :: q, r, rfl, by simpa using hfree, hq⟩
    | add c =>
      rw [advance] at h
      split at h
      · cases h
      · rename_i hc
        split at h
        · rename_i hend
          obtain ⟨rfl, _⟩ := hend
          exact ⟨[], p, rfl, by simp, hc, trivial⟩
        · rename_i hgo
          obtain ⟨q, r, rfl, hfree, hq⟩ := ih h
          refine ⟨.add c :: q, r, rfl, ?_, hc, hq⟩
          intro hmem
          rcases List.mem_cons.1 hmem with heq | hmem
          · exact hgo ⟨(Step.add.inj heq).symm, rfl⟩
          · exact hfree hmem

theorem demanded_derivation (h : Unopposed cs p) (evidence : Bool) :
    demanded ⟨.derivation, evidence⟩ cs p = (Proof.additions p).length := by
  have hgo : Mode.derivation = .full → Step.add [] ∉ p := nofun
  have hcount := h.demanded_append ⟨.derivation, evidence⟩ hgo []
  rwa [List.append_nil] at hcount

/-- A full run from `m` clauses on ends well, and with at most `n`, exactly if the derivation of some
    prefix up to an empty clause does. -/
theorem outcome_full_iff (m n : Nat) (evidence : Bool) :
    m + demanded ⟨.full, evidence⟩ cs p ≤ n ∧ (advance .full cs accepted i p).outcome = .valid ↔
      ∃ k, p[k]? = some (.add []) ∧ m + demanded ⟨.derivation, evidence⟩ cs (p.take (k + 1)) ≤ n ∧
        (advance .derivation cs accepted i (p.take (k + 1))).outcome = .valid := by
  constructor
  · rintro ⟨hle, hvalid⟩
    obtain ⟨q, r, rfl, hfree, hq⟩ := exists_of_advance_full hvalid
    obtain ⟨hq', hc, _⟩ := unopposed_append.1 hq
    refine ⟨q.length, by simp, ?_⟩
    rw [Proof.take_succ_length]
    refine ⟨?_, outcome_derivation_iff.2 hq⟩
    rw [demanded_derivation hq]
    rw [hq'.demanded_append _ fun _ => hfree] at hle
    simpa [demanded, hc, Proof.additions_append, Proof.additions, Step.added?] using hle
  · rintro ⟨k, hk, hle, hvalid⟩
    have hprefix := outcome_derivation_iff.1 hvalid
    rw [demanded_derivation hprefix] at hle
    have hmem : Step.add [] ∈ p.take (k + 1) := by
      rw [List.take_add_one, hk]
      simp
    obtain ⟨hfull, hcount⟩ := hprefix.advance_full hmem i (p.drop (k + 1))
    rw [List.take_append_drop] at hfull hcount
    have hcount := hcount evidence
    rw [hfull]
    exact ⟨by omega, rfl⟩

end Plain

/-- A check is positive if the plain checker is and there are identifiers enough. -/
theorem check_valid_iff {f : List (List Int)} {p : List NumberStep}
    (hf : ∀ vs ∈ f, ∀ v ∈ vs, Check.denotesLiteral v = true)
    (hp : ∀ s ∈ p, ∀ v ∈ Check.values s, Check.denotesLiteral v = true) (mode : Mode)
    (evidence : Bool) :
    (∃ v, check f p mode evidence = .ok (.ok v) ∧ v.outcome = .valid) ↔
      f.length + Plain.demanded ⟨mode, evidence⟩ ((Check.formulaOf f).map List.eraseDups) (Check.proofOf p) ≤
        maxIdentifier + 1 ∧
      (Plain.check (Check.formulaOf f) (Check.proofOf p) mode).outcome = .valid := by
  have hlength : (Check.formulaOf f).length = f.length := List.length_map _
  rw [check_eq hf hp, checkProof_eq (Check.valid_formulaOf hf) (Check.valid_proofOf hp), hlength]
  split
  · rename_i hle
    constructor
    · rintro ⟨v, hv, hvalid⟩
      obtain rfl := Except.ok.inj (Except.ok.inj hv)
      exact ⟨hle, (Verdict.outcome_shown _ _).symm.trans hvalid⟩
    · rintro ⟨_, hvalid⟩
      exact ⟨_, rfl, (Verdict.outcome_shown _ _).trans hvalid⟩
  · rename_i hlt
    constructor
    · rintro ⟨v, hv, _⟩
      cases hv
    · rintro ⟨hle, _⟩
      exact absurd hle hlt

theorem Check.stepOf_eq_add_nil {s : NumberStep} : stepOf s = .add [] ↔ s = .add [] := by
  cases s <;> simp [stepOf]

/-- A full proof is accepted exactly if the part of it up to a step that adds the empty clause is
    accepted as a derivation. -/
theorem full_iff_derivation (f : List (List Int)) (p : List NumberStep) (evidence : Bool)
    (hf : ∀ vs ∈ f, ∀ v ∈ vs, Check.denotesLiteral v = true)
    (hp : ∀ s ∈ p, ∀ v ∈ Check.values s, Check.denotesLiteral v = true) :
    (∃ v, check f p .full evidence = .ok (.ok v) ∧ v.outcome = .valid) ↔
      ∃ k, p[k]? = some (.add []) ∧
        ∃ v, check f (p.take (k + 1)) .derivation evidence = .ok (.ok v) ∧ v.outcome = .valid := by
  rw [check_valid_iff hf hp, Plain.check, Plain.outcome_full_iff]
  refine exists_congr fun k => ?_
  have hk : ∀ s ∈ p.take (k + 1), ∀ v ∈ Check.values s, Check.denotesLiteral v = true :=
    fun s hs => hp s (List.mem_of_mem_take hs)
  have hstep : (Check.proofOf p)[k]? = some (.add []) ↔ p[k]? = some (.add []) := by
    simp [Check.proofOf, Check.stepOf_eq_add_nil]
  have htake : (Check.proofOf p).take (k + 1) = Check.proofOf (p.take (k + 1)) :=
    List.map_take.symm
  rw [check_valid_iff hf hk, Plain.check, hstep, htake]

/-- The empty clause is added, deleted and added again. The derivation goes on to the second one, the
    full proof stops at the first. -/
theorem full_iff_derivation_twice :
    ∃ v, check [[1], [-1]] [.add [], .delete [], .add [2], .add [], .add [-1, 3]] .full true =
      .ok (.ok v) ∧ v.outcome = .valid := by
  have hderivation : check [[1], [-1]] [.add [], .delete [], .add [2], .add []] .derivation true =
      .ok (.ok .valid) := by decide +kernel
  exact (full_iff_derivation _ _ true (by decide) (by decide)).2 ⟨3, rfl, _, hderivation, rfl⟩

end ClausalProof
