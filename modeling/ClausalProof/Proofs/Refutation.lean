import ClausalProof.Proofs.Recheck.Faultless

set_option autoImplicit false

/-!
Refutations checked in another way. A full proof is read up to its first accepted empty clause; a
derivation is read to its end, and a re-check may look at any step. Behind the empty clause every
addition is accepted for as long as an empty clause is live, so what can still fail is an addition
after all empty clauses have been deleted. The main statements say that nothing else can.
-/
namespace ClausalProof

/-- Step `i + 1` of `p` adds a clause after an empty one has been added, but none is live any more. -/
def Resumes (f : Formula) (p : Proof) (i : Nat) : Prop :=
  (∃ c, p[i]? = some (.add c)) ∧ Step.add [] ∈ p.take i ∧
    [] ∉ Plain.applyAll (f.map List.eraseDups) (p.take i)

namespace Plain

/-- With an empty clause everything is redundant. -/
theorem objection?_of_mem {cs : List Clause} (hcs : ∀ d ∈ cs, d.Nodup) (h : [] ∈ cs) (c : Clause) :
    objection? cs c = none := by
  rw [objection?, (rest?_eq_none_iff hcs).2 (.inl h)]

/-- Up to the first empty clause, an accepted full proof meets no objection. -/
theorem objection?_of_full {cs accepted : List Clause} {n i : Nat} {p : Proof} {c : Clause}
    (h : (advance .full cs accepted n p).outcome = .valid) (hi : p[i]? = some (.add c))
    (hfree : Step.add [] ∉ p.take i) : objection? (applyAll cs (p.take i)) c = none := by
  induction p generalizing cs accepted n i with
  | nil => simp at hi
  | cons step p ih =>
    cases i with
    | zero =>
      obtain rfl : step = .add c := by simpa using hi
      rw [advance] at h
      cases hobj : objection? cs c with
      | none => exact hobj
      | some found => simp [hobj] at h
    | succ i =>
      rw [List.take_succ_cons, List.mem_cons, not_or] at hfree
      rw [List.getElem?_cons_succ] at hi
      -- no step before `i` adds the empty clause, so the run goes on behind each of them
      cases step with
      | delete d => exact ih h hi hfree.2
      | add d =>
        have hd : d ≠ [] := fun hd => hfree.1 (hd ▸ rfl)
        rw [advance] at h
        cases hobj : objection? cs d with
        | some found => simp [hobj] at h
        | none =>
          simp only [hobj, hd, false_and, if_false] at h
          exact ih h hi hfree.2

/-- A derivation is accepted if no step of it meets an objection. -/
theorem advance_derivation {cs accepted : List Clause} {n : Nat} {p : Proof}
    (h : ∀ i c, p[i]? = some (.add c) → objection? (applyAll cs (p.take i)) c = none) :
    advance .derivation cs accepted n p = .valid := by
  induction p generalizing cs accepted n with
  | nil => rfl
  | cons step p ih =>
    have htail : ∀ i c, p[i]? = some (.add c) →
        objection? (applyAll (apply cs step) (p.take i)) c = none :=
      fun i c hi => h (i + 1) c hi
    cases step with
    | delete d => exact ih htail
    | add d =>
      have hd : objection? cs d = none := h 0 d rfl
      rw [advance, hd]
      simp only [reduceCtorEq, and_false, if_false]
      exact ih htail

/-- An accepted full proof meets an objection only where it resumes behind the empty clause. -/
theorem objection?_of_not_resumes {f : Formula} {p : Proof} {i : Nat} {c : Clause}
    (h : (check f p .full).outcome = .valid) (hi : p[i]? = some (.add c)) (hres : ¬ Resumes f p i) :
    objection? (applyAll (f.map List.eraseDups) (p.take i)) c = none := by
  by_cases hmem : Step.add [] ∈ p.take i
  · have hlive : [] ∈ applyAll (f.map List.eraseDups) (p.take i) := by
      by_contra hgone
      exact hres ⟨⟨c, hi⟩, hmem, hgone⟩
    apply objection?_of_mem (nodup_applyAll ?_ _) hlive
    intro d hd
    obtain ⟨b, _, rfl⟩ := List.mem_map.1 hd
    exact Clause.nodup_eraseDups b
  · exact objection?_of_full h hi hmem

end Plain

theorem outcome_plain_of_check {f : List (List Int)} {p : List NumberStep} {mode : Mode}
    {evidence : Bool} {v : Verdict} (hf : ∀ vs ∈ f, ∀ v ∈ vs, Check.denotesLiteral v = true)
    (hp : ∀ s ∈ p, ∀ v ∈ Check.values s, Check.denotesLiteral v = true)
    (h : check f p mode evidence = .ok (.ok v)) :
    (Plain.check (Check.formulaOf f) (Check.proofOf p) mode).outcome = v.outcome := by
  rcases check_cases hf hp mode evidence with hok | ⟨herror, _⟩
  · obtain rfl := Except.ok.inj (Except.ok.inj (hok.symm.trans h))
    exact (Verdict.outcome_shown _ _).symm
  · cases herror.symm.trans h

/-- A proof that is accepted as a full proof is accepted as a derivation, unless it resumes after its
    empty clauses have been deleted. -/
theorem derivation_of_full (f : List (List Int)) (p : List NumberStep) (evidence evidence' : Bool)
    (v : Verdict) (hf : ∀ vs ∈ f, ∀ v ∈ vs, Check.denotesLiteral v = true)
    (hp : ∀ s ∈ p, ∀ v ∈ Check.values s, Check.denotesLiteral v = true)
    (hfull : check f p .full evidence = .ok (.ok v)) (hv : v.outcome = .valid)
    (hres : ∀ i, ¬ Resumes (Check.formulaOf f) (Check.proofOf p) i) :
    (∀ r, check f p .derivation evidence' = .ok r → r = .ok .valid) ∧
    (f.length + (Proof.additions (Check.proofOf p)).length ≤ maxIdentifier + 1 →
      check f p .derivation evidence' = .ok (.ok .valid)) := by
  have hplain := (outcome_plain_of_check hf hp hfull).trans hv
  have hderivation : Plain.check (Check.formulaOf f) (Check.proofOf p) .derivation = .valid :=
    Plain.advance_derivation fun i c hi => Plain.objection?_of_not_resumes hplain hi (hres i)
  have hshown : Verdict.valid.shown evidence' = .valid := by cases evidence' <;> rfl
  rcases check_cases hf hp .derivation evidence' with hok | ⟨herror, hlt⟩
  · rw [hok, hderivation, hshown]
    exact ⟨fun r hr => (Except.ok.inj hr).symm, fun _ => rfl⟩
  · rw [herror]
    refine ⟨fun r hr => (by cases hr), fun hle => ?_⟩
    omega

/-- Of the two empty clauses one is left when the last step adds a clause. -/
def keptRefutation : List NumberStep :=
  [.add [], .add [], .delete [], .delete [1], .add [2]]

theorem derivation_of_full_kept :
    check [[1], [-1]] keptRefutation .full true = .ok (.ok .valid) ∧
    check [[1], [-1]] keptRefutation .derivation true = .ok (.ok .valid) := by
  have hfull : check [[1], [-1]] keptRefutation .full true = .ok (.ok .valid) := by decide +kernel
  have hlive : ∀ i < 5, Step.add [] ∈ (Check.proofOf keptRefutation).take i →
      [] ∈ Plain.applyAll ((Check.formulaOf [[1], [-1]]).map List.eraseDups)
        ((Check.proofOf keptRefutation).take i) := by decide
  refine ⟨hfull, (derivation_of_full _ _ true true _ (by decide) (by decide) hfull rfl ?_).2
    (by decide)⟩
  rintro i ⟨⟨c, hc⟩, hmem, hgone⟩
  exact hgone (hlive i (List.getElem?_eq_some_iff.1 hc).1 hmem)

/-- The clauses that are left at the last step are satisfiable. -/
def lapsedRefutation : List NumberStep :=
  [.add [], .delete [], .delete [1], .add []]

theorem full_but_no_derivation :
    check [[1], [-1]] lapsedRefutation .full true = .ok (.ok .valid) ∧
    check [[1], [-1]] lapsedRefutation .derivation true =
      .ok (.ok ⟨.invalid, some 4, some [[]], some ⟨[], [⟨1, true⟩]⟩, none⟩) := by
  decide +kernel

/-- A refutation that is accepted as a full proof passes no re-check as a wrong one, unless the
    re-check looks at a step that resumes after the empty clauses have been deleted. Everything else
    is met with an objection, where the literals of the chains are valid and there are identifiers
    for the clauses. -/
theorem recheck_objects_of_full (f : List (List Int)) (p : List NumberStep) (evidence : Bool)
    (v w : Verdict) (hf : ∀ vs ∈ f, ∀ v ∈ vs, Check.denotesLiteral v = true)
    (hp : ∀ s ∈ p, ∀ v ∈ Check.values s, Check.denotesLiteral v = true)
    (hfull : check f p .full evidence = .ok (.ok v)) (hv : v.outcome = .valid)
    (hres : ∀ i, w.step = some (i + 1) → ¬ Resumes (Check.formulaOf f) (Check.proofOf p) i) :
    recheck (Check.formulaOf f) (Check.proofOf p) w ≠ .ok () ∧
    ((∀ U ∈ Recheck.chains w, ∀ l ∈ U, l.isValid = true) →
      f.length + (Proof.additions (Check.proofOf p)).length ≤ maxIdentifier + 1 →
      ∃ o, recheck (Check.formulaOf f) (Check.proofOf p) w = .error (.objection o)) := by
  have hplain := (outcome_plain_of_check hf hp hfull).trans hv
  have hvf := Check.valid_formulaOf hf
  have hvp := Check.valid_proofOf hp
  have hfails : recheck (Check.formulaOf f) (Check.proofOf p) w ≠ .ok () := by
    intro hpasses
    cases hstep : w.step with
    | none =>
      have hinvalid : (Plain.check (Check.formulaOf f) (Check.proofOf p) .full).outcome = .invalid :=
        Plain.outcome_advance_full (Recheck.not_mem_of_recheck hpasses hstep)
      cases hplain.symm.trans hinvalid
    | some k =>
      obtain ⟨q, c, r, s, x, hsplit, rfl, hreplay, _, hobj⟩ :=
        Recheck.objection?_of_recheck hvf hvp hpasses hstep
      have hi : (Check.proofOf p)[q.length]? = some (.add c) := by simp [hsplit]
      have hnone := Plain.objection?_of_not_resumes hplain hi (hres q.length hstep)
      rw [hsplit, List.take_left, ← (Store.replay_clauses hreplay).2] at hnone
      cases hnone.symm.trans hobj
  refine ⟨hfails, fun hw hsize => ?_⟩
  have hlength : (Check.formulaOf f).length = f.length := List.length_map _
  exact (Recheck.recheck_cases hvf hvp hw (by omega)).resolve_left hfails

/-- One empty clause is live before the last step, so no chain is at rest there. -/
theorem recheck_objects_of_full_kept :
    check [[1], [-1]] keptRefutation .full true = .ok (.ok .valid) ∧
    ∃ o, recheck (Check.formulaOf [[1], [-1]]) (Check.proofOf keptRefutation)
      ⟨.invalid, some 5, none, some ⟨[⟨2, false⟩], [⟨1, true⟩, ⟨2, true⟩]⟩, none⟩ =
        .error (.objection o) := by
  have hfull : check [[1], [-1]] keptRefutation .full true = .ok (.ok .valid) := by decide +kernel
  refine ⟨hfull, (recheck_objects_of_full _ _ true _ _ (by decide) (by decide) hfull rfl ?_).2
    (by decide) (by decide)⟩
  rintro i hi ⟨_, _, hgone⟩
  obtain rfl : i = 4 := by simpa using hi.symm
  exact hgone (by decide)

/-- The evidence against the derivation passes, though the full proof is accepted. -/
theorem recheck_passes_despite_full :
    check [[1], [-1]] lapsedRefutation .full true = .ok (.ok .valid) ∧
    recheck (Check.formulaOf [[1], [-1]]) (Check.proofOf lapsedRefutation)
      ⟨.invalid, some 4, some [[]], some ⟨[], [⟨1, true⟩]⟩, none⟩ = .ok () := by
  decide +kernel

end ClausalProof
