import ClausalProof.Proofs.Acceptance

set_option autoImplicit false

/-!
Extension: a literal of a new variable is defined as the conjunction of other literals. The clauses
that it implies each of them come first; no clause has the defined literal yet, so there is nothing
to resolve them with. The clause that they imply it comes last; it can be resolved with the clauses
before it only, and each of these resolvents has a literal of the conjunction and its negation. The
formula plays no part in this, nor does it matter if literals of the conjunction are repeated or
contradict each other.
-/
namespace ClausalProof

/-- The steps that define `x` as the conjunction of `as`. -/
def Proof.definition (x : Literal) (as : List Literal) : Proof :=
  as.map (fun a => .add [-x, a]) ++ [.add (x :: Clause.opposites as)]

namespace Plain

variable {cs : List Clause} {x : Literal} {as : List Literal}

/-- A clause can be added if the negation of its first literal does not occur. -/
theorem objection?_of_pure (hnodup : ∀ d ∈ cs, d.Nodup) (hpure : ∀ d ∈ cs, -x ∉ d) (c : Clause) :
    objection? cs (x :: c) = none := by
  apply (objection?_eq_none_iff hnodup).2
  exact .inr ⟨x, rfl, fun d hd hx => absurd hx (hpure d hd)⟩

theorem unopposed_implications (hnodup : ∀ d ∈ cs, d.Nodup) (hpure : ∀ d ∈ cs, x ∉ d)
    (has : ∀ a ∈ as, x ≠ a) : Unopposed cs (as.map fun a => .add [-x, a]) := by
  induction as generalizing cs with
  | nil => trivial
  | cons a as ih =>
    obtain ⟨ha, has⟩ := List.forall_mem_cons.1 has
    have hnew : x ∉ ([-x, a] : Clause).eraseDups := by
      simp [List.mem_eraseDups, ha, (Literal.neg_ne_self x).symm]
    refine ⟨objection?_of_pure hnodup (by simpa using hpure) [a], ih ?_ ?_ has⟩
    · intro d hd
      rcases List.mem_append.1 hd with hd | hd
      · exact hnodup d hd
      · exact List.mem_singleton.1 hd ▸ Clause.nodup_eraseDups _
    · intro d hd
      rcases List.mem_append.1 hd with hd | hd
      · exact hpure d hd
      · exact List.mem_singleton.1 hd ▸ hnew

/-- The resolvent with an implication of `a` has both literals of `a`. -/
theorem resolve_isTautology {a : Literal} {d : Clause} (ha : a ∈ as) (hvar : a.var ≠ x.var)
    (hd : a ∈ d) : (Clause.resolve (x :: Clause.opposites as) x d).isTautology = true := by
  have hne : a ≠ -x := by
    rintro rfl
    exact hvar rfl
  have hneg : -a ≠ x := by
    rintro rfl
    exact hvar rfl
  rw [Clause.isTautology_iff]
  refine ⟨a, Clause.mem_resolve.2 (.inr ⟨hd, hne⟩), Clause.mem_resolve.2 (.inl ⟨?_, hneg⟩)⟩
  exact List.mem_cons_of_mem _ (Clause.mem_opposites.2 (by simpa using ha))

theorem unopposed_definition (hnodup : ∀ d ∈ cs, d.Nodup) (hfresh : ∀ d ∈ cs, ∀ l ∈ d, l.var ≠ x.var)
    (has : ∀ a ∈ as, a.var ≠ x.var) : Unopposed cs (Proof.definition x as) := by
  have hpure : ∀ d ∈ cs, x ∉ d := fun d hd hx => hfresh d hd x hx rfl
  have hne : ∀ a ∈ as, x ≠ a := fun a ha h => has a ha (h ▸ rfl)
  rw [Proof.definition, unopposed_append]
  refine ⟨unopposed_implications hnodup hpure hne, ?_, trivial⟩
  apply (objection?_eq_none_iff (nodup_applyAll hnodup _)).2
  refine .inr ⟨x, rfl, fun d hd hx => .inl ?_⟩
  rcases mem_applyAll hd with hd | ⟨c, hc, rfl⟩
  · exact absurd rfl (hfresh d hd (-x) hx)
  · obtain ⟨a, ha, hac⟩ := List.mem_map.1 hc
    obtain rfl := Step.add.inj hac
    exact resolve_isTautology ha (has a ha) (List.mem_eraseDups.2 (by simp))

end Plain

namespace Check

/-- The steps that define `x` as the conjunction of `as`, all of them numbers. -/
def definition (x : Int) (as : List Int) : List NumberStep :=
  as.map (fun a => .add [-x, a]) ++ [.add (x :: as.map fun a => -a)]

variable {x : Int} {as : List Int}

theorem ofInt_neg {v : Int} (h : v ≠ 0) : Literal.ofInt (-v) = -Literal.ofInt v := by
  have hsign : decide (-v < 0) = !decide (v < 0) := by
    rw [← decide_not, decide_eq_decide]
    omega
  simp only [Literal.ofInt, Int.natAbs_neg, hsign]
  rfl

theorem denotesLiteral_neg (v : Int) : denotesLiteral (-v) = denotesLiteral v := by
  have hzero : (-v != 0) = (v != 0) := by
    rw [Bool.eq_iff_iff, bne_iff_ne, bne_iff_ne]
    omega
  rw [denotesLiteral, denotesLiteral, hzero, Int.natAbs_neg]

theorem denotes_definition (hx : denotesLiteral x = true) (has : ∀ a ∈ as, denotesLiteral a = true) :
    ∀ s ∈ definition x as, ∀ v ∈ values s, denotesLiteral v = true := by
  intro s hs v hv
  rcases List.mem_append.1 hs with hs | hs
  · obtain ⟨a, ha, rfl⟩ := List.mem_map.1 hs
    rcases List.mem_pair.1 hv with hv | hv
    · rwa [hv, denotesLiteral_neg]
    · exact hv ▸ has a ha
  · obtain rfl := List.mem_singleton.1 hs
    rcases List.mem_cons.1 hv with rfl | hv
    · exact hx
    · obtain ⟨a, ha, rfl⟩ := List.mem_map.1 hv
      rw [denotesLiteral_neg]
      exact has a ha

theorem proofOf_definition (hx : x ≠ 0) (has : ∀ a ∈ as, a ≠ 0) :
    proofOf (definition x as) = Proof.definition (Literal.ofInt x) (as.map Literal.ofInt) := by
  have hopposites : (as.map fun a => -a).map Literal.ofInt =
      Clause.opposites (as.map Literal.ofInt) := by
    rw [Clause.opposites, List.map_map, List.map_map]
    exact List.map_congr_left fun a ha => ofInt_neg (has a ha)
  rw [proofOf, definition, Proof.definition, List.map_append, List.map_map, List.map_map, ← hopposites]
  simp [stepOf, ofInt_neg hx, Function.comp_def]

end Check

/-- The definition of a literal of a new variable is accepted as a derivation from any formula. -/
theorem check_definition (f : List (List Int)) (x : Int) (as : List Int) (evidence : Bool)
    (hf : ∀ vs ∈ f, ∀ v ∈ vs, Check.denotesLiteral v = true) (hx : Check.denotesLiteral x = true)
    (has : ∀ a ∈ as, Check.denotesLiteral a = true)
    (hfresh : ∀ vs ∈ f, ∀ v ∈ vs, v.natAbs ≠ x.natAbs) (hother : ∀ a ∈ as, a.natAbs ≠ x.natAbs) :
    (∀ r, check f (Check.definition x as) .derivation evidence = .ok r → r = .ok .valid) ∧
    (f.length + as.length + 1 ≤ maxIdentifier →
      check f (Check.definition x as) .derivation evidence = .ok (.ok .valid)) := by
  have hnonzero : ∀ v, Check.denotesLiteral v = true → v ≠ 0 := by
    rintro _ h rfl
    cases h
  have hproof := Check.proofOf_definition (hnonzero x hx) fun a ha => hnonzero a (has a ha)
  have hclauses : ∀ d ∈ (Check.formulaOf f).map List.eraseDups, ∀ l ∈ d,
      l.var ≠ (Literal.ofInt x).var := by
    intro d hd l hl
    obtain ⟨c, hc, rfl⟩ := List.mem_map.1 hd
    obtain ⟨vs, hvs, rfl⟩ := List.mem_map.1 hc
    obtain ⟨v, hv, rfl⟩ := List.mem_map.1 (List.mem_eraseDups.1 hl)
    exact hfresh vs hvs v hv
  have hliterals : ∀ a ∈ as.map Literal.ofInt, a.var ≠ (Literal.ofInt x).var := by
    intro l hl
    obtain ⟨a, ha, rfl⟩ := List.mem_map.1 hl
    exact hother a ha
  have hplain : Plain.check (Check.formulaOf f) (Check.proofOf (Check.definition x as)) .derivation =
      .valid := by
    rw [hproof]
    exact (Plain.unopposed_definition (Clause.nodup_map_eraseDups _) hclauses
      hliterals).advance_derivation 1
  have hsize : (Proof.additions (Check.proofOf (Check.definition x as))).length ≤ as.length + 1 := by
    apply Nat.le_trans (List.length_filterMap_le _ _)
    simp [Check.proofOf, Check.definition]
  obtain ⟨honly, hreturns⟩ := check_of_plain hf (Check.denotes_definition hx has) hplain evidence
  rw [Verdict.shown_valid] at honly hreturns
  exact ⟨honly, fun hle => hreturns (by omega)⟩

/-- A negative literal is defined by literals that contradict each other, one of them repeated. -/
theorem check_definition_contradictory :
    check [[1, 2], [-2, 1]] (Check.definition (-4) [2, -3, -2, 2]) .derivation true =
      .ok (.ok .valid) :=
  (check_definition _ (-4) _ true (by decide) (by decide) (by decide) (by decide) (by decide)).2
    (by decide)

end ClausalProof
