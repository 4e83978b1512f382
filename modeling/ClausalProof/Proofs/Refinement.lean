import ClausalProof.Check
import ClausalProof.Proofs.Session

set_option autoImplicit false

/-!
A run from its start to its verdict, and the plain checker beside it. The main statement says that
they give the same verdict with the same evidence on every formula and proof, for as long as there
are identifiers for the clauses.
-/
namespace ClausalProof

/-- Loading a formula fails only for lack of identifiers. -/
theorem Engine.Idle.addAll {e : Engine} {f : Formula} (h : e.Idle)
    (hf : ∀ c ∈ f, ∀ l ∈ c, l.isValid = true ∧ l.var ≤ e.maxVar) :
    (∃ g, e.addAll f = .ok g ∧ g.Idle ∧ g.maxVar = e.maxVar ∧ e.store.addAll f = .ok g.store) ∨
    (e.addAll f = .error .identifierRange ∧ e.store.addAll f = .error .identifierRange ∧
      maxIdentifier + 1 < e.store.size + f.length) := by
  induction f generalizing e with
  | nil => exact .inl ⟨e, rfl, h, rfl, rfl⟩
  | cons c f ih =>
    have hc := hf c List.mem_cons_self
    rw [List.length_cons, Engine.addAll, Store.addAll]
    by_cases hs : e.store.size ≤ maxIdentifier
    · obtain ⟨g, hg, hidle, hmax, hstore, _⟩ := h.add false hc hs
      obtain ⟨_, _, hsize⟩ := h.indexed.of_add hstore
      rw [hg, hstore]
      rcases ih hidle (hmax.symm ▸ fun d hd => hf d (List.mem_cons_of_mem _ hd)) with
        ⟨k, hk, hki, hkm, hks⟩ | ⟨hk, hks, hlt⟩
      · exact .inl ⟨k, hk, hki, hkm.trans hmax, hks⟩
      · refine .inr ⟨hk, hks, ?_⟩
        omega
    · rw [h.add_overflow false hc (by omega), Store.add_overflow c false (by omega)]
      refine .inr ⟨rfl, rfl, ?_⟩
      omega

def Formula.Valid (f : Formula) : Prop := ∀ c ∈ f, ∀ l ∈ c, l.isValid = true

def Proof.Valid (p : Proof) : Prop := ∀ step ∈ p, ∀ l ∈ step.literals, l.isValid = true

namespace Session

/-- A session for the proof `p` of `f` before its first step. -/
structure Loaded (f : Formula) (p : Proof) (flags : Flags) (s : Session) : Prop where
  idle : s.engine.Idle
  maxVar : s.engine.maxVar = Session.maxVar f p
  store : Store.ofFormula f = .ok s.engine.store
  flags : s.flags = flags
  proof : s.proof = p

variable {f : Formula} {p : Proof} {flags : Flags} {s : Session}

theorem start_cases (hf : f.Valid) (flags : Flags) :
    (∃ s, start f p flags = .ok s ∧ s.phase = .ready ∧ Loaded f p flags s) ∨
    (start f p flags = .error .identifierRange ∧ Store.ofFormula f = .error .identifierRange ∧
      maxIdentifier + 1 < f.length) := by
  have hvars : ∀ c ∈ f, ∀ l ∈ c, l.isValid = true ∧ l.var ≤ maxVar f p :=
    fun c hc l hl => ⟨hf c hc l hl,
      Nat.le_trans (Formula.var_le_maxVar hc hl) (Nat.le_max_left _ _)⟩
  rcases (Engine.idle_empty (maxVar f p)).addAll hvars with ⟨e, he, hi, hm, hs⟩ | ⟨he, hs, hlt⟩
  · left
    rw [start, Engine.ofFormula, he]
    exact ⟨_, rfl, rfl, hi, hm, hs, rfl, rfl⟩
  · right
    rw [start, Engine.ofFormula, he]
    exact ⟨rfl, hs, by simpa [Engine.empty] using hlt⟩

theorem loaded_of_start (hf : f.Valid) (h : start f p flags = .ok s) :
    s.phase = .ready ∧ Loaded f p flags s := by
  rcases start_cases hf flags with ⟨t, ht, hrest⟩ | ⟨herror, _⟩
  · obtain rfl := Except.ok.inj (ht.symm.trans h)
    exact hrest
  · cases herror.symm.trans h

theorem Loaded.within (h : Loaded f p flags s) (hp : p.Valid) : p.Within s.engine.maxVar :=
  fun step hstep l hl => ⟨hp step hstep l hl, h.maxVar ▸
    Nat.le_trans (Proof.var_le_maxVar hstep hl) (Nat.le_max_right _ _)⟩

theorem Loaded.clauses (h : Loaded f p flags s) :
    s.engine.store.clauses = f.map List.eraseDups ∧ s.engine.store.size = f.length := by
  obtain ⟨_, hclauses, hsize⟩ := Store.indexed_empty.addAll h.store
  exact ⟨hclauses, by simpa using hsize⟩

theorem Loaded.within_prefix {q : Proof} (h : Loaded f p flags s) (hp : p.Valid) (hq : q <+: p) :
    q.Within s.engine.maxVar := fun step hstep => h.within hp step (hq.subset hstep)

/-- The session in which a run takes its first step. -/
def processing (s : Session) : Session := { s with phase := .processing }

theorem run_eq (hready : s.phase = .ready) : s.run = s.processing.advance 1 s.proof := by
  rw [Session.run, hready]
  rfl

/-- The clauses after an accepted prefix are those of the prefix, unchecked. -/
theorem Loaded.replay {q : Proof} {t : Session} (h : Loaded f p flags s) (hp : p.Valid)
    (hq : q <+: p) (ha : Accepts s.processing q t) : Store.replay f q = .ok t.engine.store := by
  obtain ⟨_, happly⟩ := ha.keeps h.idle (h.within_prefix hp hq)
  rw [Store.replay, h.store]
  exact happly

/-- The run of a session for the proof `q ++ r` of `f` accepts `q`, which leads to the session `t`,
    and halts there. The plain checker gets as far. -/
structure Reaches (f : Formula) (s : Session) (q r : Proof) (t : Session) : Prop where
  accepts : Accepts s.processing q t
  halts : Halts t r
  idle : t.engine.Idle
  flags : t.flags = s.flags
  proof : t.proof = q ++ r
  free : t.flags.mode = .full → Step.add [] ∉ q
  maxVar : t.engine.maxVar = Session.maxVar f (q ++ r)
  rest : r.Within t.engine.maxVar
  replay : Store.replay f q = .ok t.engine.store
  size : t.engine.store.size = f.length + (Proof.additions q).length
  run : s.run = t.advance (q.length + 1) r
  plain : Plain.check f (q ++ r) t.flags.mode =
    Plain.advance t.flags.mode t.engine.store.clauses (Proof.additions q) (q.length + 1) r

theorem Loaded.reaches (h : Loaded f p flags s) (hready : s.phase = .ready) (hp : p.Valid) :
    ∃ q r t, p = q ++ r ∧ Reaches f s q r t := by
  obtain ⟨q, r, t, rfl, hq, hfree, ht⟩ := exists_halts (s := s.processing) h.idle (h.within hp)
  have hprefix := List.prefix_append q r
  obtain ⟨hkeeps, happly⟩ := hq.keeps h.idle (h.within_prefix hp hprefix)
  obtain ⟨hclauses, hsize⟩ := h.clauses
  obtain ⟨_, _, htsize⟩ := h.idle.indexed.applyAll happly
  obtain ⟨hadv, hplain⟩ := hq.advance h.idle (h.within_prefix hp hprefix) hfree [] 1 r
  have hmode : t.flags.mode = s.flags.mode := congrArg Flags.mode hkeeps.flags
  refine ⟨q, r, t, rfl, hq, ht, hkeeps.idle, hkeeps.flags, hkeeps.proof.trans h.proof, ?_,
    hkeeps.maxVar.trans h.maxVar, ?_, h.replay hp hprefix hq, ?_, ?_, ?_⟩
  · rw [hmode]
    exact hfree
  · rw [hkeeps.maxVar]
    exact fun step hstep => h.within hp step (List.mem_append_right _ hstep)
  · rw [htsize, hsize]
  · rw [run_eq hready, h.proof, hadv, Nat.add_comm]
  · rw [Plain.check, ← hclauses, Nat.add_comm q.length, hmode]
    rw [hmode] at hplain
    exact hplain

theorem Reaches.closes {q r : Proof} {t u : Session} {v : Verdict} (h : Reaches f s q r t)
    (hrun : t.advance (q.length + 1) r = .ok (u, v)) : t.Closes q r u v :=
  h.halts.closes h.idle h.rest h.proof hrun

end Session

theorem checkProof_eq_map (f : Formula) (p : Proof) (flags : Flags) :
    checkProof f p flags = Prod.snd <$> (do (← Session.start f p flags).run) := by
  rw [checkProof, map_bind]
  rfl

/-- The verdict on a proof is that of the plain checker, unless there are too many clauses. -/
theorem checkProof_cases {f : Formula} {p : Proof} (hf : f.Valid) (hp : p.Valid) (flags : Flags) :
    checkProof f p flags = .ok ((Plain.check f p flags.mode).shown flags.evidence) ∨
    (checkProof f p flags = .error .identifierRange ∧
      maxIdentifier + 1 < f.length + (Proof.additions p).length) := by
  rcases Session.start_cases (p := p) hf flags with ⟨s, hs, hready, hloaded⟩ | ⟨herror, _, hlt⟩
  · obtain ⟨q, r, t, rfl, hr⟩ := hloaded.reaches hready hp
    rw [checkProof, hs, ← hloaded.flags, ← hr.flags, hr.plain]
    rcases hr.halts.advance hr.idle hr.rest hr.proof with ⟨u, hu⟩ | ⟨hu, hlt⟩
    · left
      simp only [bind, Except.bind, hr.run, hu]
      rfl
    · right
      have hsize := hr.size
      simp only [bind, Except.bind, hr.run, hu, Proof.additions_append, List.length_append]
      refine ⟨trivial, ?_⟩
      omega
  · right
    rw [checkProof, herror]
    refine ⟨rfl, ?_⟩
    omega

/-- A run returns unless there are too many clauses. -/
theorem run_cases {f : Formula} {p : Proof} (hf : f.Valid) (hp : p.Valid) (flags : Flags) :
    (∃ s u v, Session.start f p flags = .ok s ∧ s.run = .ok (u, v)) ∨
    ((do (← Session.start f p flags).run) = .error .identifierRange ∧
      maxIdentifier + 1 < f.length + (Proof.additions p).length) := by
  have hmap := checkProof_eq_map f p flags
  rcases checkProof_cases hf hp flags with hok | ⟨herror, hlt⟩
  · obtain ⟨s, hs, hok⟩ := Checked.bind_eq_ok.1 hok
    obtain ⟨⟨u, v⟩, hrun, _⟩ := Checked.bind_eq_ok.1 hok
    exact .inl ⟨s, u, v, hs, hrun⟩
  · rw [herror] at hmap
    cases hrun : (do (← Session.start f p flags).run) with
    | error fault =>
      rw [hrun] at hmap
      cases hmap
      exact .inr ⟨rfl, hlt⟩
    | ok x =>
      rw [hrun] at hmap
      cases hmap

/-- Behind a verdict there is a run. -/
theorem reaches_of_checkProof {f : Formula} {p : Proof} {flags : Flags} {v : Verdict} (hf : f.Valid)
    (hp : p.Valid) (h : checkProof f p flags = .ok v) :
    ∃ s u q r t, p = q ++ r ∧ Session.Loaded f p flags s ∧ Session.Reaches f s q r t ∧
      t.flags = flags ∧ t.advance (q.length + 1) r = .ok (u, v) := by
  obtain ⟨s, hs, h⟩ := Checked.bind_eq_ok.1 h
  obtain ⟨⟨u, w⟩, hrun, hw⟩ := Checked.bind_eq_ok.1 h
  obtain rfl := Checked.pure_eq_ok.1 hw
  obtain ⟨hready, hloaded⟩ := Session.loaded_of_start hf hs
  obtain ⟨q, r, t, hsplit, hr⟩ := hloaded.reaches hready hp
  exact ⟨s, u, q, r, t, hsplit, hloaded, hr, hr.flags.trans hloaded.flags, hr.run.symm.trans hrun⟩

/-- A single clause is redundant if the plain checker does not object to it. -/
theorem isRedundant_cases {f : Formula} {c : Clause} (hf : f.Valid) (hc : ∀ l ∈ c, l.isValid = true) :
    isRedundant f c = .ok (Plain.objection? (f.map List.eraseDups) c).isNone ∨
    (isRedundant f c = .error .identifierRange ∧ maxIdentifier < f.length) := by
  rcases Session.start_cases (p := [.add c]) hf ⟨.derivation, false⟩ with
    ⟨s, hs, _, hloaded⟩ | ⟨herror, _, hlt⟩
  · have hp : Proof.Valid [.add c] := by simpa [Proof.Valid, Step.literals] using hc
    have hc : ∀ l ∈ c, l.isValid = true ∧ l.var ≤ s.engine.maxVar :=
      hloaded.within hp (.add c) List.mem_cons_self
    obtain ⟨hclauses, hsize⟩ := hloaded.clauses
    obtain ⟨e, hall, hei, hes, hem⟩ := hloaded.idle.checkImplied hc
    have he : s.engine.checkImplied c c false =
        .ok (e, Engine.impliedJudgment c false (Plain.rest? s.engine.store.clauses c)) := by
      rw [hall, Engine.impliedAnswer_false]
      rfl
    rw [← hclauses, isRedundant, hs, Plain.objection?]
    cases hrest : Plain.rest? s.engine.store.clauses c with
    | none =>
      left
      simp [he, hrest, Engine.impliedJudgment, bind, Except.bind, pure, Except.pure]
    | some U =>
      rw [hrest] at he
      cases c with
      | nil =>
        left
        simp [he, Engine.impliedJudgment, Engine.checkResolved, Judgment.isHolds, bind, Except.bind, pure,
          Except.pure]
      | cons p c =>
        obtain ⟨g, hg, _⟩ := hei.checkResolved (hem.symm ▸ hc)
        rw [hes] at hg
        by_cases hfull : s.engine.store.size ≤ maxIdentifier
        · left
          cases hfound : Plain.unresolved? s.engine.store.clauses (p :: c) p <;>
            simp [he, hg, hfound, Store.scanned_of_le hfull, Engine.impliedJudgment,
              Engine.resolvedJudgment, Judgment.isHolds, bind, Except.bind, pure, Except.pure]
        · right
          have hlt := Nat.lt_of_not_le hfull
          refine ⟨?_, hsize ▸ hlt⟩
          simp [he, hg, Store.scanned_of_lt hlt, Engine.impliedJudgment, bind, Except.bind]
  · right
    rw [isRedundant, herror]
    exact ⟨rfl, by omega⟩

namespace Check

def formulaOf (f : List (List Int)) : Formula := f.map (·.map Literal.ofInt)

def values : NumberStep → List Int
  | .add vs => vs
  | .delete vs => vs

def stepOf : NumberStep → Step
  | .add vs => .add (vs.map Literal.ofInt)
  | .delete vs => .delete (vs.map Literal.ofInt)

def proofOf (p : List NumberStep) : Proof := p.map stepOf

theorem isValid_ofInt {v : Int} (h : denotesLiteral v = true) : (Literal.ofInt v).isValid = true := by
  simp only [denotesLiteral, Bool.and_eq_true, bne_iff_ne, decide_eq_true_eq] at h
  rw [Literal.isValid, Bool.and_eq_true]
  exact ⟨decide_eq_true (Int.natAbs_pos.2 h.1), decide_eq_true h.2⟩

theorem isValid_of_mem_map {vs : List Int} (h : ∀ v ∈ vs, denotesLiteral v = true) :
    ∀ l ∈ vs.map Literal.ofInt, l.isValid = true := by
  intro l hl
  obtain ⟨v, hv, rfl⟩ := List.mem_map.1 hl
  exact isValid_ofInt (h v hv)

theorem clause_eq {vs : List Int} (h : ∀ v ∈ vs, denotesLiteral v = true) :
    clause vs = .ok (vs.map Literal.ofInt) := by
  have hnone : vs.find? (fun v => !denotesLiteral v) = none := by simpa using h
  rw [clause, hnone]

theorem formula_eq {f : List (List Int)} (h : ∀ vs ∈ f, ∀ v ∈ vs, denotesLiteral v = true) (n : Nat) :
    formula n f = .ok (formulaOf f) := by
  induction f generalizing n with
  | nil => rfl
  | cons vs f ih =>
    rw [formula, clause_eq (h vs List.mem_cons_self),
      ih (fun ws hws => h ws (List.mem_cons_of_mem _ hws))]
    rfl

theorem proof_eq {p : List NumberStep} (h : ∀ s ∈ p, ∀ v ∈ values s, denotesLiteral v = true)
    (n : Nat) : proof n p = .ok (proofOf p) := by
  induction p generalizing n with
  | nil => rfl
  | cons s p ih =>
    have hclause := clause_eq (h s List.mem_cons_self)
    have hs : step s = .ok (stepOf s) := by
      cases s <;> simp only [values] at hclause <;> rw [step, hclause] <;> rfl
    rw [proof, hs, ih (fun t ht => h t (List.mem_cons_of_mem _ ht))]
    rfl

theorem valid_formulaOf {f : List (List Int)} (h : ∀ vs ∈ f, ∀ v ∈ vs, denotesLiteral v = true) :
    (formulaOf f).Valid := by
  intro c hc
  obtain ⟨vs, hvs, rfl⟩ := List.mem_map.1 hc
  exact isValid_of_mem_map (h vs hvs)

theorem valid_proofOf {p : List NumberStep} (h : ∀ s ∈ p, ∀ v ∈ values s, denotesLiteral v = true) :
    (proofOf p).Valid := by
  intro step hstep l hl
  obtain ⟨s, hs, rfl⟩ := List.mem_map.1 hstep
  have hl : l ∈ (values s).map Literal.ofInt := by cases s <;> exact hl
  exact isValid_of_mem_map (h s hs) l hl

end Check

/-- Numbers that all denote literals are checked as the literals that they denote. -/
theorem check_eq {f : List (List Int)} {p : List NumberStep}
    (hf : ∀ vs ∈ f, ∀ v ∈ vs, Check.denotesLiteral v = true)
    (hp : ∀ s ∈ p, ∀ v ∈ Check.values s, Check.denotesLiteral v = true) (mode : Mode)
    (evidence : Bool) :
    check f p mode evidence =
      .ok <$> checkProof (Check.formulaOf f) (Check.proofOf p) ⟨mode, evidence⟩ := by
  rw [check, Check.formula_eq hf, Check.proof_eq hp]

/-- A check of numbers that denote literals ends as the plain checker does, unless there are too many
    clauses. -/
theorem check_cases {f : List (List Int)} {p : List NumberStep}
    (hf : ∀ vs ∈ f, ∀ v ∈ vs, Check.denotesLiteral v = true)
    (hp : ∀ s ∈ p, ∀ v ∈ Check.values s, Check.denotesLiteral v = true) (mode : Mode)
    (evidence : Bool) :
    check f p mode evidence =
      .ok (.ok ((Plain.check (Check.formulaOf f) (Check.proofOf p) mode).shown evidence)) ∨
    (check f p mode evidence = .error .identifierRange ∧
      maxIdentifier + 1 < f.length + (Proof.additions (Check.proofOf p)).length) := by
  have hlength : (Check.formulaOf f).length = f.length := List.length_map _
  rw [check_eq hf hp]
  rcases checkProof_cases (Check.valid_formulaOf hf) (Check.valid_proofOf hp) ⟨mode, evidence⟩ with
    hok | ⟨herror, hlt⟩
  · rw [hok]
    exact .inl rfl
  · rw [herror, ← hlength]
    exact .inr ⟨rfl, hlt⟩

theorem checkStep_cases {f : List (List Int)} {c : List Int}
    (hf : ∀ vs ∈ f, ∀ v ∈ vs, Check.denotesLiteral v = true)
    (hc : ∀ v ∈ c, Check.denotesLiteral v = true) :
    checkStep f c = .ok (.ok (Plain.objection? ((Check.formulaOf f).map List.eraseDups)
      (c.map Literal.ofInt)).isNone) ∨
    (checkStep f c = .error .identifierRange ∧ maxIdentifier < f.length) := by
  have hlength : (Check.formulaOf f).length = f.length := List.length_map _
  rw [checkStep, Check.formula_eq hf, Check.clause_eq hc]
  rcases isRedundant_cases (Check.valid_formulaOf hf) (Check.isValid_of_mem_map hc) with
    hok | ⟨herror, hlt⟩
  · exact .inl (by simp only [hok]; rfl)
  · exact .inr ⟨by simp only [herror]; rfl, hlength ▸ hlt⟩

/-- The engine refines the plain checker: a check that returns has its verdict, with the same step,
    accepted clauses and evidence, and it does return if the clauses of the formula and the proof
    have an identifier each. -/
theorem check_eq_plain (f : List (List Int)) (p : List NumberStep) (mode : Mode)
    (hf : ∀ vs ∈ f, ∀ v ∈ vs, Check.denotesLiteral v = true)
    (hp : ∀ s ∈ p, ∀ v ∈ Check.values s, Check.denotesLiteral v = true) :
    (∀ r, check f p mode true = .ok r →
      r = .ok (Plain.check (Check.formulaOf f) (Check.proofOf p) mode)) ∧
    (f.length + (Proof.additions (Check.proofOf p)).length ≤ maxIdentifier + 1 →
      check f p mode true = .ok (.ok (Plain.check (Check.formulaOf f) (Check.proofOf p) mode))) := by
  rw [check_eq hf hp]
  have hlength : (Check.formulaOf f).length = f.length := List.length_map _
  rcases checkProof_cases (Check.valid_formulaOf hf) (Check.valid_proofOf hp) ⟨mode, true⟩ with
    hok | ⟨herror, hlt⟩
  · rw [hok]
    exact ⟨fun r hr => (Except.ok.inj hr).symm, fun _ => rfl⟩
  · rw [herror]
    refine ⟨fun r hr => (by cases hr), fun hle => ?_⟩
    omega

/-- The clause of step 1 fails both checks; its resolvent with the older clause is the culprit. -/
theorem check_eq_plain_rejection :
    (∀ vs ∈ [[1, 2], [-1, 2]], ∀ v ∈ vs, Check.denotesLiteral v = true) ∧
    check [[1, 2], [-1, 2]] [.add [-2]] .full true = .ok (.ok ⟨.invalid, some 1, some [],
      some ⟨[⟨2, true⟩], [⟨2, false⟩]⟩,
      some ⟨[⟨2, true⟩], [⟨1, false⟩, ⟨2, false⟩], ⟨[⟨2, true⟩], [⟨1, true⟩, ⟨2, false⟩]⟩⟩⟩) := by
  refine ⟨by decide, ?_⟩
  rw [(check_eq_plain [[1, 2], [-1, 2]] [.add [-2]] .full (by decide) (by decide)).2 (by decide)]
  decide +kernel

end ClausalProof
