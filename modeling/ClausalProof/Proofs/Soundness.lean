import ClausalProof.Proofs.Refinement

set_option autoImplicit false

/-!
Accepted steps keep a formula satisfiable. An implied clause holds in every valuation of the live
clauses; a clause that is resolved on its first literal may change the valuation, but some valuation
remains. A formula whose proof is accepted up to the empty clause is therefore unsatisfiable.
-/
namespace ClausalProof

theorem Satisfiable.mono {cs ds : List Clause} (h : Satisfiable cs) (hds : ∀ d ∈ ds, d ∈ cs) :
    Satisfiable ds := by
  obtain ⟨v, hv⟩ := h
  exact ⟨v, fun d hd => hv d (hds d hd)⟩

theorem Valuation.satisfies_eraseDups {v : Valuation} {c : Clause} :
    v.Satisfies c.eraseDups ↔ v.Satisfies c := by
  simp [Satisfies, List.mem_eraseDups]

theorem satisfiable_map_eraseDups {f : Formula} :
    Satisfiable (f.map List.eraseDups) ↔ Satisfiable f := by
  simp [Satisfiable, Valuation.Models, Valuation.satisfies_eraseDups]

namespace Plain

variable {cs : List Clause} {c : Clause}

/-- A clause to which there is no objection can be added. -/
theorem satisfiable_add (hcs : ∀ d ∈ cs, d.Nodup) (hobj : objection? cs c = none)
    (h : Satisfiable cs) : Satisfiable (add cs c) := by
  -- the order of the clauses and repeated literals do not matter
  suffices hsuff : Satisfiable (c :: cs) by
    obtain ⟨v, hv⟩ := hsuff
    refine ⟨v, fun d hd => ?_⟩
    rcases List.mem_append.1 hd with hd | hd
    · exact hv d (List.mem_cons_of_mem _ hd)
    · rw [List.mem_singleton.1 hd, Valuation.satisfies_eraseDups]
      exact hv c List.mem_cons_self
  obtain ⟨v, hv⟩ := h
  by_cases hc : v.Satisfies c
  · exact ⟨v, List.forall_mem_cons.2 ⟨hc, hv⟩⟩
  unfold objection? at hobj
  cases hrest : rest? cs c with
  | none => exact absurd (Valuation.satisfies_of_clash hv ((rest?_eq_none_iff hcs).1 hrest)) hc
  | some U =>
    cases c with
    | nil => simp [hrest] at hobj
    | cons p c =>
      have hnone : unresolved? cs (p :: c) p = none := by simpa [hrest] using hobj
      refine ⟨v.make p, Valuation.models_make hv hc List.mem_cons_self fun d hd hp => ?_⟩
      exact (clash_of_unresolved? hcs hnone hd hp).imp_right (Valuation.satisfies_of_clash hv)

end Plain

namespace Session

variable {s t : Session} {q : Proof}

theorem Takes.satisfiable {step : Step} (h : s.Takes step t) (hs : s.engine.Idle)
    (hc : ∀ l ∈ step.literals, l.isValid = true ∧ l.var ≤ s.engine.maxVar)
    (hsat : Satisfiable s.engine.store.clauses) : Satisfiable t.engine.store.clauses := by
  obtain ⟨_, happly⟩ := h.keeps hs hc
  obtain ⟨_, hclauses, _⟩ := hs.indexed.apply happly
  rw [hclauses]
  cases step with
  | delete c => exact hsat.mono fun d hd => List.mem_of_mem_eraseP hd
  | add c => exact Plain.satisfiable_add hs.indexed.nodup_clauses (h.objection? hs hc) hsat

theorem Accepts.satisfiable (h : Accepts s q t) (hs : s.engine.Idle) (hq : q.Within s.engine.maxVar)
    (hsat : Satisfiable s.engine.store.clauses) : Satisfiable t.engine.store.clauses := by
  induction h with
  | done s => exact hsat
  | next ht _ ih =>
    obtain ⟨hkeeps, _⟩ := ht.keeps hs hq.head
    exact ih hkeeps.idle (hkeeps.maxVar.symm ▸ hq.tail) (ht.satisfiable hs hq.head hsat)

variable {f : Formula} {p : Proof} {flags : Flags}

theorem Loaded.satisfiable (h : Loaded f p flags s) (hp : p.Valid) (hq : q <+: p)
    (ha : Accepts s.processing q t) (hf : Satisfiable f) : Satisfiable t.engine.store.clauses := by
  refine ha.satisfiable h.idle (h.within_prefix hp hq) ?_
  change Satisfiable s.engine.store.clauses
  rw [h.clauses.1]
  exact satisfiable_map_eraseDups.2 hf

/-- A run of `p` with the given outcome accepts the steps of a proof `q`, which lead to the session
    `t`, and no others. -/
inductive Ends (mode : Mode) (p : Proof) : Proof → Session → Outcome → Prop where
  | derived {t : Session} : mode = .derivation → Ends mode p p t .valid
  | completed {t : Session} {q r : Proof} :
      mode = .full → p = q ++ .add [] :: r → Ends mode p (q ++ [.add []]) t .valid
  | lacking {t : Session} : mode = .full → Ends mode p p t .invalid
  | rejected {t u : Session} {q r : Proof} {c : Clause} {why : Rejection} :
      p = q ++ .add c :: r → t.introduce c = .ok (u, some why) → Ends mode p q t .invalid

/-- The clauses at the end of a run are those after the steps that it has accepted. -/
theorem Reaches.ends {r : Proof} {u : Session} {v : Verdict} (h : Reaches f s q r t)
    (hrun : t.advance (q.length + 1) r = .ok (u, v)) :
    ∃ a w, Accepts s.processing a w ∧ u.engine.store = w.engine.store ∧
      Ends t.flags.mode (q ++ r) a w v.outcome := by
  cases h.closes hrun with
  | derived hm =>
    rw [List.append_nil]
    exact ⟨q, t, h.accepts, rfl, .derived hm⟩
  | lacking hm =>
    rw [List.append_nil, Verdict.outcome_shown]
    exact ⟨q, t, h.accepts, rfl, .lacking hm⟩
  | @completed r w hm hw =>
    exact ⟨q ++ [.add []], w, h.accepts.append (.next hw (.done w)), rfl, .completed hm rfl⟩
  | rejected _ hw hstore _ =>
    rw [Verdict.outcome_shown]
    exact ⟨q, t, h.accepts, hstore, .rejected rfl hw⟩

/-- No valuation satisfies the clauses after the empty clause has been accepted. -/
theorem Accepts.not_satisfiable (h : Accepts s (q ++ [.add []]) t) (hs : s.engine.Idle)
    (hq : Proof.Within (q ++ [.add []]) s.engine.maxVar) : ¬ Satisfiable t.engine.store.clauses := by
  obtain ⟨_, happly⟩ := h.keeps hs hq
  obtain ⟨_, hclauses, _⟩ := hs.indexed.applyAll happly
  rintro ⟨v, hv⟩
  have hmem : [] ∈ t.engine.store.clauses := by
    rw [hclauses, Plain.applyAll, List.foldl_append]
    exact List.mem_append_right _ (List.mem_singleton.2 rfl)
  obtain ⟨l, hl, _⟩ := hv [] hmem
  simp at hl

end Session

theorem not_satisfiable_of_checkProof {f : Formula} {p : Proof} {evidence : Bool} {v : Verdict}
    (hf : f.Valid) (hp : p.Valid) (h : checkProof f p ⟨.full, evidence⟩ = .ok v)
    (hv : v.outcome = .valid) : ¬ Satisfiable f := by
  obtain ⟨s, u, q, r, t, rfl, hloaded, hr, hflags, hrun⟩ := reaches_of_checkProof hf hp h
  obtain ⟨a, w, ha, _, hends⟩ := hr.ends hrun
  rw [hv, hflags] at hends
  cases hends with
  | derived hm => cases hm
  | @completed _ a rest _ hsplit =>
    have hprefix : a ++ [.add []] <+: q ++ r := ⟨rest, by simp [hsplit]⟩
    intro hsat
    exact ha.not_satisfiable hloaded.idle (hloaded.within_prefix hp hprefix)
      (hloaded.satisfiable hp hprefix ha hsat)

/-- Soundness. After each step that a run accepts, the live clauses are satisfiable if the formula
    is; the clauses with which a run ends are those after the last such step; and so a formula with
    an accepted full proof is unsatisfiable. -/
theorem run_sound (f : List (List Int)) (p : List NumberStep) (mode : Mode) (evidence : Bool)
    (hf : ∀ vs ∈ f, ∀ v ∈ vs, Check.denotesLiteral v = true)
    (hp : ∀ s ∈ p, ∀ v ∈ Check.values s, Check.denotesLiteral v = true) :
    (∀ s, Session.start (Check.formulaOf f) (Check.proofOf p) ⟨mode, evidence⟩ = .ok s →
      (∀ q t, q <+: Check.proofOf p → s.processing.Accepts q t →
        Satisfiable (Check.formulaOf f) → Satisfiable t.engine.store.clauses) ∧
      ∀ u v, s.run = .ok (u, v) → ∃ q t, s.processing.Accepts q t ∧
        u.engine.store = t.engine.store ∧ Session.Ends mode (Check.proofOf p) q t v.outcome) ∧
    ∀ v, check f p .full evidence = .ok (.ok v) → v.outcome = .valid →
      ¬ Satisfiable (Check.formulaOf f) := by
  have hvf := Check.valid_formulaOf hf
  have hvp := Check.valid_proofOf hp
  constructor
  · intro s hs
    obtain ⟨hready, hloaded⟩ := Session.loaded_of_start hvf hs
    refine ⟨fun q t hq ha => hloaded.satisfiable hvp hq ha, fun u v hrun => ?_⟩
    obtain ⟨q, r, t, hsplit, hr⟩ := hloaded.reaches hready hvp
    have hends := hr.ends (hr.run.symm.trans hrun)
    rwa [← hsplit, hr.flags, hloaded.flags] at hends
  · intro v hv
    rw [check_eq hf hp] at hv
    obtain ⟨w, hw, hwv⟩ := Checked.bind_eq_ok.1 hv
    cases hwv
    exact not_satisfiable_of_checkProof hvf hvp hw

theorem run_sound_two_variables :
    check [[1, 2], [-1, 2], [1, -2], [-1, -2]] [.add [2], .delete [2, 1], .add []] .full true =
      .ok (.ok .valid) ∧
    ¬ Satisfiable (Check.formulaOf [[1, 2], [-1, 2], [1, -2], [-1, -2]]) := by
  have hvalid : check [[1, 2], [-1, 2], [1, -2], [-1, -2]] [.add [2], .delete [2, 1], .add []] .full
      true = .ok (.ok .valid) := by decide +kernel
  exact ⟨hvalid, (run_sound _ _ .full true (by decide) (by decide)).2 _ hvalid rfl⟩

end ClausalProof
