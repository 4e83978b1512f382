import ClausalProof.Proofs.Soundness

set_option autoImplicit false

/-!
Runs that accept every clause because it is implied. `Statistics.resolved` counts the additions that
were accepted on other grounds; as long as it stays 0, a valuation of the formula satisfies whatever
is added, and deletions take nothing away from it. The main statement says that an accepted proof
whose run ends with that count has derived consequences only.
-/
namespace ClausalProof

/-- The steps up to the first addition of the empty clause, and that one. -/
def Proof.throughEmpty : Proof → Proof
  | [] => []
  | step :: p => if step = .add [] then [step] else step :: throughEmpty p

/-- The steps that an accepted run has looked at. -/
def Mode.processed : Mode → Proof → Proof
  | .derivation, p => p
  | .full, p => p.throughEmpty

theorem Proof.throughEmpty_append {q : Proof} (h : Step.add [] ∉ q) (r : Proof) :
    throughEmpty (q ++ .add [] :: r) = q ++ [.add []] := by
  induction q with
  | nil => simp [throughEmpty]
  | cons step q ih =>
    obtain ⟨hstep, hq⟩ := not_or.1 (mt List.mem_cons.2 h)
    rw [List.cons_append, throughEmpty, if_neg (Ne.symm hstep), ih hq]
    rfl

theorem Proof.throughEmpty_prefix (p : Proof) : p.throughEmpty <+: p := by
  induction p with
  | nil => exact List.prefix_refl []
  | cons step p ih =>
    rw [throughEmpty]
    split
    · exact ⟨p, rfl⟩
    · exact List.cons_prefix_cons.2 ⟨rfl, ih⟩

theorem Mode.processed_prefix (mode : Mode) (p : Proof) : mode.processed p <+: p := by
  cases mode with
  | derivation => exact List.prefix_refl p
  | full => exact p.throughEmpty_prefix

theorem Valuation.models_map_eraseDups {v : Valuation} {f : Formula} :
    v.Models (f.map List.eraseDups) ↔ v.Models f := by
  simp [Models, satisfies_eraseDups]

namespace Session

variable {s t u : Session} {c : Clause} {q r : Proof} {v : Valuation}

theorem accept_statistics {event : Nat → Clause → Event} (h : s.accept c event = .ok t) :
    t.statistics = s.statistics := by
  simp only [accept, Checked.bind_eq_ok, Checked.pure_eq_ok] at h
  obtain ⟨_, _, _, _, rfl⟩ := h
  rfl

/-- A deletion is counted, and counted again if it matches no live clause. -/
theorem delete_statistics (h : s.delete c = .ok t) :
    ∃ found, s.engine.delete c = .ok (found, t.engine) ∧
      t.statistics = { s.statistics with
        deletions := s.statistics.deletions + 1
        unmatched := s.statistics.unmatched + if found.isNone then 1 else 0 } := by
  simp only [Session.delete, Checked.bind_eq_ok] at h
  obtain ⟨⟨found, engine⟩, hfound, h⟩ := h
  refine ⟨found, ?_⟩
  cases found with
  | none =>
    rw [← Checked.pure_eq_ok.1 h]
    exact ⟨hfound, rfl⟩
  | some id =>
    obtain ⟨_, _, h⟩ := Checked.bind_eq_ok.1 h
    rw [← Checked.pure_eq_ok.1 h]
    exact ⟨hfound, rfl⟩

/-- An addition is accepted because its clause is implied, or it is counted as resolved. -/
theorem introduce_statistics (h : s.introduce c = .ok (t, none)) (hs : s.engine.Idle)
    (hc : ∀ l ∈ c, l.isValid = true ∧ l.var ≤ s.engine.maxVar) :
    (t.statistics = { s.statistics with implied := s.statistics.implied + 1 } ∧
      Clash s.engine.store.clauses c.opposites) ∨
    t.statistics = { s.statistics with resolved := s.statistics.resolved + 1 } := by
  obtain ⟨e, he, _⟩ := hs.checkImplied hc
  obtain ⟨x, hx, h⟩ := Checked.bind_eq_ok.1 h
  rw [he] at hx
  rcases Engine.impliedAnswer_cases s.engine.store c s.flags.evidence
    (Plain.rest? s.engine.store.clauses c) with hanswer | ⟨hanswer, _⟩ <;> rw [hanswer] at hx
  swap
  · cases hx
  obtain rfl := Except.ok.inj hx
  cases hrest : Plain.rest? s.engine.store.clauses c with
  | none =>
    left
    rw [hrest] at h
    obtain ⟨w, hw, hwt⟩ := Checked.bind_eq_ok.1 h
    cases hwt
    rw [accept_statistics hw]
    exact ⟨rfl, (Plain.rest?_eq_none_iff hs.indexed.nodup_clauses).1 hrest⟩
  | some U =>
    right
    rw [hrest] at h
    obtain ⟨⟨g, judgment⟩, _, h⟩ := Checked.bind_eq_ok.1 h
    cases judgment with
    | fails why => cases h
    | holds =>
      obtain ⟨w, hw, hwt⟩ := Checked.bind_eq_ok.1 h
      cases hwt
      rw [accept_statistics hw]

theorem Takes.resolved_le {step : Step} (h : s.Takes step t) (hs : s.engine.Idle)
    (hc : ∀ l ∈ step.literals, l.isValid = true ∧ l.var ≤ s.engine.maxVar) :
    s.statistics.resolved ≤ t.statistics.resolved := by
  cases step with
  | delete c =>
    obtain ⟨_, _, hcount⟩ := delete_statistics h
    simp [hcount]
  | add c => rcases introduce_statistics h hs hc with ⟨hcount, _⟩ | hcount <;> simp [hcount]

/-- A step that is not counted keeps every valuation of the live clauses, and the clause that it adds
    holds there. -/
theorem Takes.models {step : Step} (h : s.Takes step t) (hs : s.engine.Idle)
    (hc : ∀ l ∈ step.literals, l.isValid = true ∧ l.var ≤ s.engine.maxVar)
    (hcount : t.statistics.resolved = s.statistics.resolved) (hv : v.Models s.engine.store.clauses) :
    v.Models t.engine.store.clauses ∧ ∀ c ∈ step.added?.toList, v.Satisfies c := by
  obtain ⟨_, happly⟩ := h.keeps hs hc
  rw [(hs.indexed.apply happly).2.1]
  cases step with
  | delete c => exact ⟨fun d hd => hv d (List.mem_of_mem_eraseP hd), by simp [Step.added?]⟩
  | add c =>
    rcases introduce_statistics h hs hc with ⟨_, hclash⟩ | hmore
    · have hsat : v.Satisfies c := Valuation.satisfies_of_clash hv hclash
      refine ⟨List.forall_mem_append.2 ⟨hv, ?_⟩, by simpa [Step.added?] using hsat⟩
      simpa using Valuation.satisfies_eraseDups.2 hsat
    · rw [hmore] at hcount
      exact absurd hcount (Nat.succ_ne_self _)

theorem Accepts.resolved_le (h : Accepts s q t) (hs : s.engine.Idle) (hq : q.Within s.engine.maxVar) :
    s.statistics.resolved ≤ t.statistics.resolved := by
  induction h with
  | done s => exact Nat.le_refl _
  | next ht _ ih =>
    obtain ⟨hkeeps, _⟩ := ht.keeps hs hq.head
    exact Nat.le_trans (ht.resolved_le hs hq.head) (ih hkeeps.idle (hkeeps.maxVar.symm ▸ hq.tail))

theorem Accepts.models (h : Accepts s q t) (hs : s.engine.Idle) (hq : q.Within s.engine.maxVar)
    (hcount : t.statistics.resolved = s.statistics.resolved) (hv : v.Models s.engine.store.clauses) :
    ∀ c ∈ Proof.additions q, v.Satisfies c := by
  induction h with
  | done s => simp [Proof.additions]
  | @next s t u step q ht hrest ih =>
    obtain ⟨hkeeps, _⟩ := ht.keeps hs hq.head
    have hq' : q.Within t.engine.maxVar := hkeeps.maxVar.symm ▸ hq.tail
    -- the count never falls, so neither this step nor a later one is counted
    have hfirst := ht.resolved_le hs hq.head
    have hlater := hrest.resolved_le hkeeps.idle hq'
    obtain ⟨hmodels, hadded⟩ := ht.models hs hq.head (by omega) hv
    rw [Proof.additions_cons]
    exact List.forall_mem_append.2 ⟨hadded, ih hkeeps.idle hq' (by omega) hmodels⟩

variable {f : Formula} {p : Proof} {flags : Flags} {verdict : Verdict}

theorem start_statistics (h : start f p flags = .ok s) :
    s.statistics = ⟨f.length, p.length, 0, 0, 0, 0⟩ := by
  obtain ⟨engine, _, h⟩ := Checked.bind_eq_ok.1 h
  rw [← Checked.pure_eq_ok.1 h]

/-- An accepted run ends in the session behind the steps that it has looked at. -/
theorem Reaches.accepts_processed (h : Reaches f s q r t)
    (hrun : t.advance (q.length + 1) r = .ok (u, verdict)) (hvalid : verdict.outcome = .valid) :
    ∃ w, Accepts s.processing (t.flags.mode.processed (q ++ r)) w ∧
      u = { w with phase := .doneValid } := by
  cases h.closes hrun with
  | derived hm =>
    refine ⟨t, ?_, rfl⟩
    rw [List.append_nil, hm]
    exact h.accepts
  | lacking hm =>
    rw [Verdict.outcome_shown] at hvalid
    cases hvalid
  | @completed r w hm hw =>
    refine ⟨w, ?_, rfl⟩
    rw [hm, Mode.processed, Proof.throughEmpty_append (h.free hm)]
    exact h.accepts.append (.next hw (.done w))
  | rejected =>
    rw [Verdict.outcome_shown] at hvalid
    cases hvalid

end Session

/-- An accepted proof in which no clause was accepted on other grounds than implication: the run took
    each step that it processed, and every valuation of the formula satisfies every clause that these
    steps add. -/
theorem run_consequence (f : Formula) (p : Proof) (mode : Mode) (evidence : Bool) (hf : f.Valid)
    (hp : p.Valid) (s u : Session) (verdict : Verdict)
    (hs : Session.start f p ⟨mode, evidence⟩ = .ok s) (hrun : s.run = .ok (u, verdict))
    (hvalid : verdict.outcome = .valid) (hcount : u.statistics.resolved = 0) :
    (∃ t, s.processing.Accepts (mode.processed p) t ∧ u = { t with phase := .doneValid }) ∧
    ∀ v : Valuation, v.Models f → ∀ c ∈ Proof.additions (mode.processed p), v.Satisfies c := by
  obtain ⟨hready, hloaded⟩ := Session.loaded_of_start hf hs
  obtain ⟨q, r, t, rfl, hr⟩ := hloaded.reaches hready hp
  obtain ⟨w, hw, rfl⟩ := hr.accepts_processed (hr.run.symm.trans hrun) hvalid
  have hmode : t.flags.mode = mode := by rw [hr.flags, hloaded.flags]
  rw [hmode] at hw
  refine ⟨⟨w, hw, rfl⟩, fun v hv => ?_⟩
  refine hw.models hloaded.idle (hloaded.within_prefix hp (Mode.processed_prefix _ _)) ?_ ?_
  · change w.statistics.resolved = s.statistics.resolved
    rw [Session.start_statistics hs]
    exact hcount
  · change v.Models s.engine.store.clauses
    rw [hloaded.clauses.1]
    exact Valuation.models_map_eraseDups.2 hv

/-- The second clause follows from the first and a premise that is deleted afterwards. -/
theorem run_consequence_behind_deletion :
    ∃ s u verdict, Session.start (Check.formulaOf [[1, 2], [-1, 2], [-2, 3]])
        (Check.proofOf [.add [2], .delete [2, 1], .add [3], .delete [2, -1]]) ⟨.derivation, true⟩ = .ok s ∧
      s.run = .ok (u, verdict) ∧ verdict.outcome = .valid ∧ u.statistics.resolved = 0 ∧
      ∀ v : Valuation, v.Models (Check.formulaOf [[1, 2], [-1, 2], [-2, 3]]) →
        v.Satisfies [⟨2, false⟩] ∧ v.Satisfies [⟨3, false⟩] := by
  have hrun : (do
      let s ← Session.start (Check.formulaOf [[1, 2], [-1, 2], [-2, 3]])
        (Check.proofOf [.add [2], .delete [2, 1], .add [3], .delete [2, -1]]) ⟨.derivation, true⟩
      let (u, verdict) ← s.run
      return (verdict, u.statistics)) = .ok (.valid, ⟨3, 4, 2, 0, 2, 0⟩) := by decide +kernel
  obtain ⟨s, hs, hrun⟩ := Checked.bind_eq_ok.1 hrun
  obtain ⟨⟨u, verdict⟩, hu, hrun⟩ := Checked.bind_eq_ok.1 hrun
  obtain ⟨rfl, hstatistics⟩ := Prod.mk.inj (Checked.pure_eq_ok.1 hrun)
  have hcount : u.statistics.resolved = 0 := by rw [hstatistics]
  refine ⟨s, u, .valid, hs, hu, rfl, hcount, fun v hv => ?_⟩
  have hall := (run_consequence _ _ .derivation true (Check.valid_formulaOf (by decide))
    (Check.valid_proofOf (by decide)) s u .valid hs hu rfl hcount).2 v hv
  exact ⟨hall [⟨2, false⟩] (by decide), hall [⟨3, false⟩] (by decide)⟩

end ClausalProof
