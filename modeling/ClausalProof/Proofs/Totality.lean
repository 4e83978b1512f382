import ClausalProof.Proofs.Refinement

set_option autoImplicit false

/-!
Checks of 32 bit numbers return on every input: no bound, precondition or invariant inside them is
ever violated, as long as there are identifiers for the clauses. The answer is an error exactly if
some number denotes no literal, and then it names the first such number in reading order.
-/
namespace ClausalProof

def InputError.value : InputError → Int
  | .premise _ v => v
  | .step _ v => v
  | .candidate v => v

namespace Check

/-- The signed numbers of 32 bits. -/
def IsWord (v : Int) : Prop := -2147483648 ≤ v ∧ v ≤ 2147483647

instance (v : Int) : Decidable (IsWord v) :=
  inferInstanceAs (Decidable (-2147483648 ≤ v ∧ v ≤ 2147483647))

/-- The places of the numbers in some rows, in reading order. The rows are counted from `n`. -/
def places (place : Nat → Int → InputError) (n : Nat) : List (List Int) → List InputError
  | [] => []
  | vs :: rows => vs.map (place n) ++ places place (n + 1) rows

/-- A proof is read after the formula. -/
def reading (f : List (List Int)) (p : List NumberStep) : List InputError :=
  places .premise 1 f ++ places .step 1 (p.map values)

/-- A candidate is read after the formula. -/
def stepReading (f : List (List Int)) (c : List Int) : List InputError :=
  places .premise 1 f ++ c.map .candidate

/-- The first place whose number is one of the two words that denote no literal. -/
def firstInvalid? (es : List InputError) : Option InputError :=
  es.find? fun e => e.value == 0 || e.value == -2147483648

/-- The first place whose number denotes no literal. -/
def firstUndenoting? (es : List InputError) : Option InputError :=
  es.find? fun e => !denotesLiteral e.value

theorem denotesLiteral_of_isWord {v : Int} (h : IsWord v) :
    (!denotesLiteral v) = (v == 0 || v == -2147483648) := by
  have hbound : v.natAbs ≤ maxVariable ↔ v ≠ -2147483648 := by
    unfold IsWord at h
    unfold maxVariable
    omega
  rw [Bool.eq_iff_iff]
  simp [denotesLiteral, hbound]

theorem firstUndenoting?_eq {es : List InputError} (h : ∀ v ∈ es.map InputError.value, IsWord v) :
    firstUndenoting? es = firstInvalid? es := by
  induction es with
  | nil => rfl
  | cons e es ih =>
    have htail := ih fun v hv => h v (List.mem_cons_of_mem _ hv)
    have hhead := denotesLiteral_of_isWord (h e.value List.mem_cons_self)
    simp only [firstUndenoting?, firstInvalid?] at htail ⊢
    rw [List.find?_cons, List.find?_cons, htail, hhead]

theorem firstUndenoting?_eq_none {es : List InputError} :
    firstUndenoting? es = none ↔ ∀ v ∈ es.map InputError.value, denotesLiteral v = true := by
  simp [firstUndenoting?]

theorem map_value_places {place : Nat → Int → InputError} (hplace : ∀ n v, (place n v).value = v)
    (n : Nat) (rows : List (List Int)) : (places place n rows).map InputError.value = rows.flatten := by
  induction rows generalizing n with
  | nil => rfl
  | cons vs rows ih =>
    rw [places, List.map_append, List.map_map, ih, List.flatten_cons]
    congr 1
    exact (List.map_congr_left fun v _ => hplace n v).trans (List.map_id' vs)

/-- What some numbers denote, unless one of them is wrong. -/
def answer {α : Type} (a : α) : Option InputError → Except InputError α
  | some e => .error e
  | none => .ok a

theorem answer_eq_error {α : Type} {a : α} {o : Option InputError} {e : InputError} :
    answer a o = .error e ↔ o = some e := by
  cases o <;> simp [answer]

theorem firstUndenoting?_map {vs : List Int} {place : Int → InputError}
    (hplace : ∀ v, (place v).value = v) :
    firstUndenoting? (vs.map place) = (vs.find? fun v => !denotesLiteral v).map place := by
  rw [firstUndenoting?, List.find?_map]
  simp only [Function.comp_def, hplace]

theorem clause_mapError {α : Type} (g : Clause → α) (vs : List Int) (place : Int → InputError)
    (hplace : ∀ v, (place v).value = v) :
    (g <$> clause vs).mapError place =
      answer (g (vs.map Literal.ofInt)) (firstUndenoting? (vs.map place)) := by
  rw [firstUndenoting?_map hplace, clause]
  cases vs.find? fun v => !denotesLiteral v <;> rfl

theorem firstUndenoting?_append (es ds : List InputError) :
    firstUndenoting? (es ++ ds) = (firstUndenoting? es).or (firstUndenoting? ds) :=
  List.find?_append

theorem formula_eq_answer (f : List (List Int)) (n : Nat) :
    formula n f = answer (formulaOf f) (firstUndenoting? (places .premise n f)) := by
  induction f generalizing n with
  | nil => rfl
  | cons vs f ih =>
    have hclause := clause_mapError id vs (.premise n) (fun _ => rfl)
    rw [id_map] at hclause
    rw [formula, hclause, ih (n + 1), places, firstUndenoting?_append]
    cases firstUndenoting? (vs.map (.premise n)) with
    | some e => rfl
    | none => cases firstUndenoting? (places .premise (n + 1) f) <;> rfl

theorem step_mapError (s : NumberStep) (n : Nat) :
    (step s).mapError (.step n) = answer (stepOf s) (firstUndenoting? ((values s).map (.step n))) := by
  cases s with
  | add vs => exact clause_mapError Step.add vs (.step n) (fun _ => rfl)
  | delete vs => exact clause_mapError Step.delete vs (.step n) (fun _ => rfl)

theorem proof_eq_answer (p : List NumberStep) (n : Nat) :
    proof n p = answer (proofOf p) (firstUndenoting? (places .step n (p.map values))) := by
  induction p generalizing n with
  | nil => rfl
  | cons s p ih =>
    rw [proof, step_mapError, ih (n + 1), List.map_cons, places, firstUndenoting?_append]
    cases firstUndenoting? ((values s).map (.step n)) with
    | some e => rfl
    | none => cases firstUndenoting? (places .step (n + 1) (p.map values)) <;> rfl

theorem valid_of_firstUndenoting? {f : List (List Int)}
    (h : firstUndenoting? (places .premise 1 f) = none) : (formulaOf f).Valid := by
  rw [firstUndenoting?_eq_none, map_value_places fun _ _ => rfl] at h
  exact valid_formulaOf fun vs hvs v hv => h v (List.mem_flatten_of_mem hvs hv)

end Check

open Check

/-- A check of numbers looks at all of them first, and then returns a verdict if there are enough
    identifiers. -/
theorem check_eq_answer (f : List (List Int)) (p : List NumberStep) (mode : Mode) (evidence : Bool)
    (hsize : f.length + (Proof.additions (proofOf p)).length ≤ maxIdentifier) :
    ∃ v, check f p mode evidence = .ok (answer v (firstUndenoting? (reading f p))) := by
  rw [check, formula_eq_answer, proof_eq_answer, reading, firstUndenoting?_append]
  cases hf : firstUndenoting? (places .premise 1 f) with
  | some e => exact ⟨.valid, rfl⟩
  | none =>
  cases hp : firstUndenoting? (places .step 1 (p.map values)) with
  | some e => exact ⟨.valid, rfl⟩
  | none =>
  -- every number denotes a literal, so the proof is checked
  rw [firstUndenoting?_eq_none, map_value_places fun _ _ => rfl] at hp
  have hp : (proofOf p).Valid := valid_proofOf fun s hs v hv =>
    hp v (List.mem_flatten_of_mem (List.mem_map_of_mem hs) hv)
  have hlength : (formulaOf f).length = f.length := List.length_map _
  rcases checkProof_cases (valid_of_firstUndenoting? hf) hp ⟨mode, evidence⟩ with hok | ⟨_, hlt⟩
  · exact ⟨_, by simp only [answer, hok]; rfl⟩
  · omega

theorem checkStep_eq_answer (f : List (List Int)) (c : List Int) (hsize : f.length ≤ maxIdentifier) :
    ∃ b, checkStep f c = .ok (answer b (firstUndenoting? (stepReading f c))) := by
  rw [checkStep, formula_eq_answer, stepReading, firstUndenoting?_append,
    firstUndenoting?_map fun _ => rfl, clause]
  cases hf : firstUndenoting? (places .premise 1 f) with
  | some e => exact ⟨true, rfl⟩
  | none =>
  cases hc : c.find? fun v => !denotesLiteral v with
  | some v => exact ⟨true, rfl⟩
  | none =>
  have hc : ∀ l ∈ c.map Literal.ofInt, l.isValid = true := by
    apply isValid_of_mem_map
    simpa using hc
  have hlength : (formulaOf f).length = f.length := List.length_map _
  rcases isRedundant_cases (valid_of_firstUndenoting? hf) hc with hok | ⟨_, hlt⟩
  · exact ⟨_, by simp only [answer, hok]; rfl⟩
  · omega

/-- Checks of words return, whatever they are given, and report the first that denotes no literal. -/
theorem checks_return (f : List (List Int)) (hf : ∀ vs ∈ f, ∀ v ∈ vs, IsWord v) :
    (∀ p mode evidence, (∀ s ∈ p, ∀ v ∈ values s, IsWord v) →
      f.length + (Proof.additions (proofOf p)).length ≤ maxIdentifier →
      ∃ r, check f p mode evidence = .ok r ∧
        ∀ e, r = .error e ↔ firstInvalid? (reading f p) = some e) ∧
    (∀ c, (∀ v ∈ c, IsWord v) → f.length ≤ maxIdentifier →
      ∃ r, checkStep f c = .ok r ∧
        ∀ e, r = .error e ↔ firstInvalid? (stepReading f c) = some e) := by
  have hpremises : ∀ v ∈ (places .premise 1 f).map InputError.value, IsWord v := by
    rw [map_value_places fun _ _ => rfl]
    intro v hv
    obtain ⟨vs, hvs, hv⟩ := List.mem_flatten.1 hv
    exact hf vs hvs v hv
  constructor
  · intro p mode evidence hp hsize
    have hsteps : ∀ v ∈ (places .step 1 (p.map values)).map InputError.value, IsWord v := by
      rw [map_value_places fun _ _ => rfl]
      intro v hv
      obtain ⟨vs, hvs, hv⟩ := List.mem_flatten.1 hv
      obtain ⟨s, hs, rfl⟩ := List.mem_map.1 hvs
      exact hp s hs v hv
    have hwords : ∀ v ∈ (reading f p).map InputError.value, IsWord v := by
      rw [reading, List.map_append]
      exact List.forall_mem_append.2 ⟨hpremises, hsteps⟩
    obtain ⟨v, hv⟩ := check_eq_answer f p mode evidence hsize
    refine ⟨_, hv, fun e => ?_⟩
    rw [answer_eq_error, firstUndenoting?_eq hwords]
  · intro c hc hsize
    have hwords : ∀ v ∈ (stepReading f c).map InputError.value, IsWord v := by
      have hid : (c.map InputError.candidate).map InputError.value = c := by
        rw [List.map_map]
        exact List.map_id' c
      rw [stepReading, List.map_append, hid]
      exact List.forall_mem_append.2 ⟨hpremises, hc⟩
    obtain ⟨b, hb⟩ := checkStep_eq_answer f c hsize
    refine ⟨_, hb, fun e => ?_⟩
    rw [answer_eq_error, firstUndenoting?_eq hwords]

/-- The invalid number of the proof is not reported, since the formula has one. -/
theorem checks_return_premise_first :
    (∀ vs ∈ [[1, -2], [3, -2147483648]], ∀ v ∈ vs, IsWord v) ∧
    (∀ s ∈ [NumberStep.delete [0]], ∀ v ∈ values s, IsWord v) ∧
    check [[1, -2], [3, -2147483648]] [.delete [0]] .full true =
      .ok (.error (.premise 2 (-2147483648))) ∧
    checkStep [[1, -2]] [2, 0] = .ok (.error (.candidate 0)) := by
  have hf : ∀ vs ∈ [[1, -2], [3, -2147483648]], ∀ v ∈ vs, IsWord v := by decide
  have hp : ∀ s ∈ [NumberStep.delete [0]], ∀ v ∈ values s, IsWord v := by decide
  obtain ⟨r, hr, hfirst⟩ := (checks_return _ hf).1 [.delete [0]] .full true hp (by decide)
  obtain ⟨b, hb, hcandidate⟩ :=
    (checks_return [[1, -2]] (by decide)).2 [2, 0] (by decide) (by decide)
  refine ⟨hf, hp, ?_, ?_⟩
  · rw [hr, (hfirst (.premise 2 (-2147483648))).2 (by decide)]
  · rw [hb, (hcandidate (.candidate 0)).2 (by decide)]

end ClausalProof
