import ClausalProof.Command.Programs
import ClausalProof.Proofs.Text.Grammar

set_option autoImplicit false

/-!
What is written is read back: clauses, proofs and formulas over valid literals come out of their
texts as they went in, since the texts are what the grammar says.
-/
namespace ClausalProof

open Text Command.Program

theorem Text.gap_blank : Gap [32] := ⟨by simp, by simp [isBlank]⟩

namespace Clause

theorem encodeUtf8_text_cons (l : Literal) (c : Clause) :
    encodeUtf8 (text (l :: c)) = encodeUtf8 l.text ++ 32 :: encodeUtf8 (text c) := by
  simp only [text, List.map_cons, String.join_cons, encodeUtf8_append, List.append_assoc]
  rfl

theorem written_text {c : Clause} (hc : ∀ l ∈ c, l.isValid = true) :
    c.Written (encodeUtf8 c.text) := by
  induction c with
  | nil =>
    have hzero : encodeUtf8 (Decimal.ofInt 0) = encodeUtf8 (text []) := encodeUtf8_ofNat 0
    exact .nil (hzero ▸ .ofInt 0)
  | cons l c ih =>
    obtain ⟨hl, hc⟩ := List.forall_mem_cons.1 hc
    have hofInt := Literal.ofInt_toInt hl
    have hvar : l.toInt.natAbs = l.var := l.natAbs_toInt
    simp only [Literal.isValid, Bool.and_eq_true, decide_eq_true_eq] at hl
    have hwritten := Written.cons (.ofInt l.toInt) (by omega) (hvar ▸ hl.2) gap_blank (ih hc)
    rw [hofInt] at hwritten
    rw [encodeUtf8_text_cons]
    exact hwritten

end Clause

theorem encodeUtf8_proofText_cons (step : Step) (p : Proof) :
    encodeUtf8 (proofText (step :: p)) =
      encodeUtf8 step.text ++ newline :: encodeUtf8 (proofText p) := by
  simp only [proofText, List.map_cons, String.join_cons, encodeUtf8_append, List.append_assoc]
  rfl

/-- A list of clauses is written as a proof without deletions. -/
theorem Proof.written_proofText {g : Grammar} {p : Proof} (hp : p.Valid)
    (hg : g = .clauses → ∀ step ∈ p, step.isDeletion = false) :
    Written g p (encodeUtf8 (proofText p)) := by
  induction p with
  | nil => exact .nil
  | cons step p ih =>
    obtain ⟨hstep, hp⟩ := List.forall_mem_cons.1 hp
    have hline : Written g p (newline :: encodeUtf8 (proofText p)) :=
      .blank rfl (ih hp fun h s hs => hg h s (List.mem_cons_of_mem _ hs))
    rw [encodeUtf8_proofText_cons]
    cases step with
    | add c => exact .add (Clause.written_text hstep) rfl hline
    | delete c =>
      have hbytes : encodeUtf8 (Step.text (.delete c)) = 100 :: 32 :: encodeUtf8 (Clause.text c) :=
        encodeUtf8_append "d " (Clause.text c)
      have hproof : g = .proof := by
        cases g with
        | proof => rfl
        | clauses => cases hg rfl (.delete c) List.mem_cons_self
      rw [hbytes]
      exact .delete hproof gap_blank (Clause.written_text hstep) rfl hline

theorem Header.written_text {v n : Nat} (hv : v ≤ maxVariable) (hn : n ≤ maxNumber) :
    Written ⟨v, n⟩ (encodeUtf8 ("p cnf " ++ Decimal.ofNat v ++ " " ++ Decimal.ofNat n)) := by
  have hbytes : encodeUtf8 ("p cnf " ++ Decimal.ofNat v ++ " " ++ Decimal.ofNat n) =
      [112, 32, 99, 110, 102] ++ ([32] ++ (encodeUtf8 (Decimal.ofNat v) ++
        ([32] ++ encodeUtf8 (Decimal.ofNat n)))) := by
    simp only [encodeUtf8_append, List.append_assoc]
    rfl
  rw [hbytes]
  exact .counts gap_blank (.ofInt v) gap_blank (.ofInt n) hv hn

namespace Problem

/-- A written proof is read back behind what is there. -/
theorem readProof_proofText (q : Problem) {p : Proof} (hp : p.Valid) :
    q.readProof (encodeUtf8 (proofText p)) =
      ({ q with maxVar := max q.maxVar p.maxVar, proof := q.proof ++ p }, none) :=
  readProof_eq_iff.2 ⟨p, Proof.written_proofText hp (by simp), rfl⟩

/-- A written formula is read back behind what is there, with its header. -/
theorem readFormula_text (q : Problem) {f : Formula} {v n : Nat} (hf : f.Valid) (hv : v ≤ maxVariable)
    (hn : n ≤ maxNumber) :
    q.readFormula (encodeUtf8 ("p cnf " ++ Decimal.ofNat v ++ " " ++ Decimal.ofNat n ++ "\n" ++
        String.join (f.map fun c => c.text ++ "\n"))) =
      ({ q with
          header := some ⟨v, n⟩
          maxVar := max q.maxVar f.maxVar
          formula := q.formula ++ f }, none) := by
  have hbytes : encodeUtf8 ("p cnf " ++ Decimal.ofNat v ++ " " ++ Decimal.ofNat n ++ "\n" ++
      String.join (f.map fun c => c.text ++ "\n")) =
      encodeUtf8 ("p cnf " ++ Decimal.ofNat v ++ " " ++ Decimal.ofNat n) ++
        newline :: encodeUtf8 (proofText (f.map .add)) := by
    have hbody : String.join (f.map fun c => c.text ++ "\n") = proofText (f.map .add) := by
      rw [proofText, List.map_map]
      rfl
    rw [hbody, encodeUtf8_append, encodeUtf8_append _ "\n", List.append_assoc]
    rfl
  have hadds : Proof.Valid (f.map .add) := by
    intro step hstep
    obtain ⟨c, hc, rfl⟩ := List.mem_map.1 hstep
    exact hf c hc
  have hnone : ∀ step ∈ f.map Step.add, step.isDeletion = false := by
    intro step hstep
    obtain ⟨c, _, rfl⟩ := List.mem_map.1 hstep
    rfl
  refine readFormula_eq_iff.2 ⟨⟨v, n⟩, f, ⟨_, _, hbytes, Header.written_text hv hn, rfl, ?_⟩, rfl⟩
  exact .blank rfl (Proof.written_proofText hadds fun _ => hnone)

end Problem

/-- Printing and then reading is the identity, for a proof and for a formula with any header, and a
    check of the printed texts comes to what a check of the numbers comes to. -/
theorem read_printed (f : List (List Int)) (p : List NumberStep) (v n : Nat)
    (hf : ∀ vs ∈ f, ∀ v ∈ vs, Check.denotesLiteral v = true)
    (hp : ∀ s ∈ p, ∀ v ∈ Check.values s, Check.denotesLiteral v = true)
    (hv : v ≤ 2147483647) (hn : n ≤ 9223372036854775807) :
    let formula := "p cnf " ++ Decimal.ofNat v ++ " " ++ Decimal.ofNat n ++ "\n" ++
      String.join ((Check.formulaOf f).map fun c => c.text ++ "\n")
    let proof := String.join ((Check.proofOf p).map fun step => step.text ++ "\n")
    Problem.empty.readFormula (encodeUtf8 formula) =
      (⟨Formula.maxVar (Check.formulaOf f), some ⟨v, n⟩, Check.formulaOf f, []⟩, none) ∧
    Problem.empty.readProof (encodeUtf8 proof) =
      (⟨Proof.maxVar (Check.proofOf p), none, [], Check.proofOf p⟩, none) ∧
    Problem.ofTexts formula proof = .ok ⟨Session.maxVar (Check.formulaOf f) (Check.proofOf p),
      some ⟨v, n⟩, Check.formulaOf f, Check.proofOf p⟩ ∧
    ∀ mode evidence, ∃ r, checkTexts formula proof ⟨mode, evidence⟩ = .ok <$> r ∧
      check f p mode evidence = .ok <$> r := by
  intro formula proof
  have hformula (q : Problem) := q.readFormula_text (Check.valid_formulaOf hf) hv hn
  have hproof (q : Problem) := q.readProof_proofText (Check.valid_proofOf hp)
  have htexts : Problem.ofTexts formula proof = .ok ⟨Session.maxVar (Check.formulaOf f)
      (Check.proofOf p), some ⟨v, n⟩, Check.formulaOf f, Check.proofOf p⟩ := by
    rw [Problem.ofTexts, Problem.ofBytes, hformula]
    change unlessCut _ (Problem.readProof _ (encodeUtf8 (proofText _))) = _
    rw [hproof]
    simp [unlessCut, Problem.empty, Session.maxVar]
  refine ⟨?_, ?_, htexts, fun mode evidence => ?_⟩
  · rw [hformula]
    simp [Problem.empty]
  · change Problem.readProof _ (encodeUtf8 (proofText _)) = _
    rw [hproof]
    simp [Problem.empty]
  · refine ⟨checkProof (Check.formulaOf f) (Check.proofOf p) ⟨mode, evidence⟩, ?_, check_eq hf hp _ _⟩
    rw [checkTexts, htexts]
    rfl

/-- The empty clause, repeated literals and the largest variable, under a header that announces
    something else. -/
theorem read_printed_limits :
    Problem.ofTexts "p cnf 0 9223372036854775807\n2147483647 -2147483647 0\n0\n" "-1 -1 0\nd 0\n" =
      .ok ⟨2147483647, some ⟨0, 9223372036854775807⟩,
        [[⟨2147483647, false⟩, ⟨2147483647, true⟩], []], [.add [⟨1, true⟩, ⟨1, true⟩], .delete []]⟩ := by
  have hread := (read_printed [[2147483647, -2147483647], []] [.add [-1, -1], .delete []] 0
    9223372036854775807 (by decide) (by decide) (by decide) (by decide)).2.2.1
  have hformula : "p cnf " ++ Decimal.ofNat 0 ++ " " ++ Decimal.ofNat 9223372036854775807 ++ "\n" ++
      String.join ((Check.formulaOf [[2147483647, -2147483647], []]).map fun c => c.text ++ "\n") =
      "p cnf 0 9223372036854775807\n2147483647 -2147483647 0\n0\n" := by decide +kernel
  have hproof : String.join ((Check.proofOf [.add [-1, -1], .delete []]).map fun step =>
      step.text ++ "\n") = "-1 -1 0\nd 0\n" := by decide +kernel
  rw [hformula, hproof] at hread
  exact hread

end ClausalProof
