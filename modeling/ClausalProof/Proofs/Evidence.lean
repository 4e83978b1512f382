import ClausalProof.Proofs.Refinement

set_option autoImplicit false

/-!
Runs with and without evidence. To find the evidence of a failed check, propagation is repeated as a
scan of the clauses, even if the clause is accepted afterwards. The main statement says that this can
be seen in the verdict only: the two runs stop at the same step, in the same state. The one exception
is a store without an identifier left, which can be propagated in but not scanned.
-/
namespace ClausalProof

theorem Plain.isSome_of_objection? {cs : List Clause} {c : Clause} {rup : RupFailure}
    {rat : Option RatFailure} (h : objection? cs c = some (rup, rat)) :
    rat.isSome = true ↔ c ≠ [] := by
  unfold objection? at h
  cases hrest : rest? cs c with
  | none => simp [hrest] at h
  | some U =>
    cases c with
    | nil =>
      obtain ⟨_, rfl⟩ : _ ∧ none = rat := by simpa [hrest] using h
      simp
    | cons l c =>
      obtain ⟨_, _, _, _, rfl⟩ : ∃ d V, unresolved? cs (l :: c) l = some (d, V) ∧ _ ∧ _ = rat := by
        simpa [hrest] using h
      simp

/-- If `v` is negative, it accepts all clauses that `p` adds or rejects one of them. A rejection has
    evidence that the clause is not implied, and evidence about a resolvent unless the clause has no
    literal to resolve on. -/
def Verdict.Explains (p : Proof) (v : Verdict) : Prop :=
  v.outcome = .invalid →
    (v.step = none ∧ v.accepted = some (Proof.additions p)) ∨
    ∃ i c, v.step = some (i + 1) ∧ p[i]? = some (.add c) ∧ v.rup.isSome = true ∧
      (v.rat.isSome = true ↔ c ≠ [])

theorem Verdict.explains_valid (p : Proof) : Verdict.valid.Explains p := by
  intro h
  cases h

namespace Session

theorem mode_asking (s : Session) (evidence : Bool) :
    (s.asking evidence).flags.mode = s.flags.mode := rfl

theorem delete_asking (s : Session) (c : Clause) (evidence : Bool) :
    (s.asking evidence).delete c = (s.delete c).map (·.asking evidence) := by
  simp only [Session.delete, asking, bind, Except.bind]
  cases s.engine.delete c with
  | error fault => rfl
  | ok x =>
    obtain ⟨found, engine⟩ := x
    cases found with
    | none => rfl
    | some id =>
      dsimp only
      cases engine.store.clause id <;> rfl

/-- From the session `s` on, with the steps of `r` left from number `i` on, a run ends in the same state
    whether or not evidence is asked for, and its verdict explains a rejection if it is. If it runs out
    of identifiers, it may still reject a clause for which no evidence is asked. -/
def EndsAlike (s : Session) (i : Nat) (r : Proof) : Prop :=
  ((s.asking true).advance i r = .error .identifierRange ∧
    ((s.asking false).advance i r = .error .identifierRange ∨
      ∃ u, (s.asking false).advance i r = .ok (u, .invalid))) ∨
  ∃ (u : Session) (v : Verdict), v.Explains s.proof ∧
    ∀ evidence, (s.asking evidence).advance i r = .ok (u.asking evidence, v.shown evidence)

theorem endsAlike_nil (s : Session) (i : Nat) : s.EndsAlike i [] := by
  right
  cases hm : s.flags.mode with
  | derivation =>
    refine ⟨{ s with phase := .doneValid }, .valid, Verdict.explains_valid _, fun evidence => ?_⟩
    simp only [Session.advance, finish, mode_asking, hm, Verdict.shown_valid]
    rfl
  | full =>
    refine ⟨{ s with phase := .doneInvalid }.record .noEmptyClause,
      ⟨.invalid, none, some (Proof.additions s.proof), none, none⟩, fun _ => .inl ⟨rfl, rfl⟩,
      fun evidence => ?_⟩
    simp only [Session.advance, finish, mode_asking, hm, Verdict.rejected_end]
    rfl

theorem EndsAlike.of_advance {s t : Session} {i : Nat} {step : Step} {r : Proof}
    (h : t.EndsAlike (i + 1) r) (hproof : t.proof = s.proof)
    (hadvance : ∀ evidence, (s.asking evidence).advance i (step :: r) =
      (t.asking evidence).advance (i + 1) r) : s.EndsAlike i (step :: r) := by
  unfold EndsAlike at h ⊢
  simp only [hadvance]
  rwa [hproof] at h

theorem endsAlike_of_objection {s : Session} {c : Clause} {q r : Proof} {rup : RupFailure}
    {rat : Option RatFailure} {t : Session} (hproof : s.proof = q ++ .add c :: r)
    (hobj : Plain.objection? s.engine.store.clauses c = some (rup, rat)) (hkeeps : Keeps s t)
    (ht : ∀ evidence, (s.asking evidence).introduce c =
      .ok (t.asking evidence, some (.of evidence rup rat))) :
    s.EndsAlike (q.length + 1) (.add c :: r) := by
  refine .inr ⟨{ t with phase := .doneInvalid },
    ⟨.invalid, some (q.length + 1), some (Proof.additions q), some rup, rat⟩, ?_, fun evidence => ?_⟩
  · intro _
    exact .inr ⟨q.length, c, rfl, by simp [hproof], rfl, Plain.isSome_of_objection? hobj⟩
  · have hverdict := Verdict.rejected_step evidence q (.add c :: r) (Rejection.of evidence rup rat).rup
      (Rejection.of evidence rup rat).rat
    rw [← hproof, ← hkeeps.proof] at hverdict
    simp only [Session.advance, ht, bind, Except.bind]
    change (do
      let verdict ← Verdict.rejected evidence t.proof _ _ _
      return (_, verdict)) = _
    rw [hverdict]
    cases evidence <;> rfl

theorem endsAlike_full {s : Session} {c : Clause} {q r : Proof} (hs : s.engine.Idle)
    (hc : ∀ l ∈ c, l.isValid = true ∧ l.var ≤ s.engine.maxVar)
    (hfull : maxIdentifier < s.engine.store.size) (hproof : s.proof = q ++ .add c :: r) :
    s.EndsAlike (q.length + 1) (.add c :: r) := by
  left
  constructor
  · rcases introduce_full hs hc hfull true with ⟨herror, _⟩ | ⟨_, _, hevidence, _⟩
    · exact advance_exhausted herror _ _
    · cases hevidence
  · rcases introduce_full hs hc hfull false with ⟨herror, _⟩ | ⟨rup, t, _, _, _, ht, hkeeps, _⟩
    · exact .inl (advance_exhausted herror _ _)
    · have hkeeps : Keeps (s.asking false) (t.asking false) :=
        ⟨hkeeps.idle, by rw [asking, asking, hkeeps.flags], hkeeps.proof, hkeeps.maxVar⟩
      exact .inr ⟨_, advance_of_introduce (t := s.asking false) ht hkeeps hproof r⟩

/-- Both runs take the same steps: the checks of an addition leave the same engine behind. -/
theorem endsAlike {s : Session} {q r : Proof} (hs : s.engine.Idle) (hr : r.Within s.engine.maxVar)
    (hproof : s.proof = q ++ r) : s.EndsAlike (q.length + 1) r := by
  induction r generalizing s q with
  | nil => exact endsAlike_nil s _
  | cons step r ih =>
    -- a step that both runs take belongs to the prefix
    have hnext : ∀ t, Keeps s t → t.EndsAlike (q.length + 2) r := by
      intro t ht
      have hsplit : t.proof = (q ++ [step]) ++ r := by
        rw [ht.proof, hproof, List.append_assoc, List.singleton_append]
      have hrest := ih ht.idle (ht.maxVar.symm ▸ hr.tail) hsplit
      rwa [List.length_append, List.length_singleton] at hrest
    cases step with
    | delete c =>
      obtain ⟨t, ht, hkeeps, _⟩ := delete_keeps hs c
      refine (hnext t hkeeps).of_advance hkeeps.proof fun evidence => ?_
      rw [Session.advance, delete_asking, ht]
      rfl
    | add c =>
      by_cases hsize : s.engine.store.size ≤ maxIdentifier
      swap
      · exact endsAlike_full hs hr.head (Nat.lt_of_not_le hsize) hproof
      rcases introduce_asking (c := c) hs hr.head hsize with
        ⟨rup, rat, t, hobj, hall, hkeeps, _⟩ | ⟨t, _, hall, hkeeps, _⟩
      · exact endsAlike_of_objection hproof hobj hkeeps hall
      · by_cases hend : (c.isEmpty && t.flags.mode == .full) = true
        · refine .inr ⟨{ t with phase := .doneValid }, .valid, Verdict.explains_valid _, ?_⟩
          intro evidence
          rw [advance_accepted (hall evidence), mode_asking, if_pos hend, Verdict.shown_valid]
          rfl
        · refine (hnext t hkeeps).of_advance hkeeps.proof fun evidence => ?_
          rw [advance_accepted (hall evidence), mode_asking, if_neg hend]

theorem start_asking (f : Formula) (p : Proof) (mode : Mode) (evidence : Bool) :
    start f p ⟨mode, evidence⟩ = (start f p ⟨mode, false⟩).map (·.asking evidence) := by
  simp only [start, bind, Except.bind]
  cases Engine.ofFormula (maxVar f p) f <;> rfl

theorem run_asking {s : Session} (hready : s.phase = .ready) (evidence : Bool) :
    (s.asking evidence).run = (s.processing.asking evidence).advance 1 s.proof :=
  run_eq (s := s.asking evidence) hready

/-- A whole run ends alike with and without evidence, or there are too many clauses. -/
theorem start_run_asking {f : Formula} {p : Proof} (hf : f.Valid) (hp : p.Valid) (mode : Mode) :
    ((do (← start f p ⟨mode, true⟩).run) = .error .identifierRange ∧
      ((do (← start f p ⟨mode, false⟩).run) = .error .identifierRange ∨
        ∃ u, (do (← start f p ⟨mode, false⟩).run) = .ok (u, .invalid)) ∧
      maxIdentifier + 1 < f.length + (Proof.additions p).length) ∨
    ∃ (u : Session) (v : Verdict), v.Explains p ∧ ∀ evidence,
      (do (← start f p ⟨mode, evidence⟩).run) = .ok (u.asking evidence, v.shown evidence) := by
  rcases start_cases (p := p) hf ⟨mode, false⟩ with ⟨s, hs, hready, hloaded⟩ | ⟨herror, _, hlt⟩
  · have hstart : ∀ evidence, (do (← start f p ⟨mode, evidence⟩).run) =
        (s.processing.asking evidence).advance 1 p := by
      intro evidence
      rw [start_asking, hs, ← hloaded.proof, ← run_asking hready]
      rfl
    simp only [hstart]
    rcases endsAlike (s := s.processing) (q := []) hloaded.idle (hloaded.within hp) hloaded.proof with
      ⟨hfault, hbare⟩ | ⟨u, v, hv, hend⟩
    · refine .inl ⟨hfault, hbare, ?_⟩
      rcases run_cases hf hp ⟨mode, true⟩ with ⟨s', u, v, hs', hrun⟩ | ⟨_, hlt⟩
      · have hok := Checked.bind_eq_ok.2 ⟨s', hs', hrun⟩
        cases hok.symm.trans ((hstart true).trans hfault)
      · exact hlt
    · exact .inr ⟨u, v, hloaded.proof ▸ hv, hend⟩
  · refine .inl ⟨?_, .inl ?_, by omega⟩ <;> rw [start_asking, herror] <;> rfl

end Session

/-- With and without evidence a run ends at the same step, in the same state and with the same outcome,
    if there are identifiers enough. Without evidence a rejection says nothing else; with evidence it
    says why the clause of a rejected step is not redundant. -/
theorem run_evidence (f : Formula) (p : Proof) (mode : Mode) (hf : f.Valid) (hp : p.Valid) :
    (((do (← Session.start f p ⟨mode, false⟩).run) = .error .identifierRange ∨
        ∃ t, (do (← Session.start f p ⟨mode, false⟩).run) = .ok (t, .invalid)) ∧
      (do (← Session.start f p ⟨mode, true⟩).run) = .error .identifierRange ∧
      maxIdentifier + 1 < f.length + (Proof.additions p).length) ∨
    ∃ t u v w, (do (← Session.start f p ⟨mode, false⟩).run) = .ok (t, v) ∧
      (do (← Session.start f p ⟨mode, true⟩).run) = .ok (u, w) ∧
      v.outcome = w.outcome ∧ t.engine = u.engine ∧ t.statistics = u.statistics ∧ t.phase = u.phase ∧
      (v.outcome = .invalid → v = .invalid) ∧ w.Explains p := by
  rcases Session.start_run_asking hf hp mode with ⟨hfault, hbare, hlt⟩ | ⟨u, v, hv, hend⟩
  · exact .inl ⟨hbare, hfault, hlt⟩
  · refine .inr ⟨_, _, _, _, hend false, hend true, rfl, rfl, rfl, rfl, ?_, hv⟩
    intro hinvalid
    change Verdict.bare v.outcome = .bare .invalid
    rw [← hinvalid]
    rfl

/-- The last clause is neither implied nor resolved. The one before it is not implied either, so it
    takes both checks to accept it. -/
theorem run_evidence_rejection :
    ∃ t u v w, (do (← Session.start (Check.formulaOf [[1, 2], [-1, 2]])
        (Check.proofOf [.add [2], .delete [2, 1], .add [3, -2], .add [-2, 1]]) ⟨.derivation, false⟩).run) =
        .ok (t, v) ∧
      (do (← Session.start (Check.formulaOf [[1, 2], [-1, 2]])
        (Check.proofOf [.add [2], .delete [2, 1], .add [3, -2], .add [-2, 1]]) ⟨.derivation, true⟩).run) =
        .ok (u, w) ∧
      t.engine = u.engine ∧ t.statistics = u.statistics ∧ t.statistics.resolved = 1 ∧ v = .invalid ∧
      w.step = some 4 ∧ w.rup.isSome = true ∧ w.rat.isSome = true := by
  let f := Check.formulaOf [[1, 2], [-1, 2]]
  let p := Check.proofOf [.add [2], .delete [2, 1], .add [3, -2], .add [-2, 1]]
  have hrun : (do (← Session.start f p ⟨.derivation, true⟩).run).map
      (fun x : Session × Verdict => (x.2.outcome, x.2.step, x.1.statistics.resolved)) =
      .ok (.invalid, some 4, 1) := by
    decide +kernel
  rcases run_evidence f p .derivation (Check.valid_formulaOf (by decide))
    (Check.valid_proofOf (by decide)) with ⟨_, _, hlt⟩ | ⟨t, u, v, w, ht, hu, ho, he, hst, _, hfast, hw⟩
  · exact absurd hlt (by decide)
  · rw [hu] at hrun
    obtain ⟨hout, hstep, hcount⟩ : w.outcome = .invalid ∧ w.step = some 4 ∧ u.statistics.resolved = 1 := by
      simpa [Except.map] using hrun
    refine ⟨t, u, v, w, ht, hu, he, hst, hst ▸ hcount, hfast (ho.trans hout), hstep, ?_⟩
    rcases hw hout with ⟨hnone, _⟩ | ⟨i, c, hi, hc, hrup, hrat⟩
    · cases hnone.symm.trans hstep
    · obtain rfl : i = 3 := by simpa [hstep] using hi
      refine ⟨hrup, hrat.2 ?_⟩
      rintro rfl
      exact absurd hc (by decide)

end ClausalProof
