import ClausalProof.Proofs.Acceptance
import ClausalProof.Proofs.Consequence

set_option autoImplicit false

/-!
What a run leaves behind when it ends. The store is the one that the committed steps give when they are
applied without a check, a rejected step leaves no trace in it, and the counters of the session add up
to the number of live clauses (`Tallied`).
-/
namespace ClausalProof

def Step.deleted? : Step → Option Clause
  | .add _ => none
  | .delete c => some c

/-- The clauses that a proof deletes, or tries to. -/
def Proof.deletions (p : Proof) : List Clause := p.filterMap Step.deleted?

namespace Store

variable {s t : Store}

theorem Without.live {c d : Clause} {older newer : List (Nat × Clause)} {id : Nat}
    (h : Without s t c older id d newer) (hs : s.Indexed) (ht : t.Indexed) : s.live = t.live + 1 := by
  rw [hs.live, ht.live, h.before, h.after, List.length_append, List.length_append, List.length_cons]
  omega

end Store

namespace Session

/-- The counters of a session that has taken the steps of `q` after loading `f`. -/
structure Tallied (f : Formula) (q : Proof) (s : Session) : Prop where
  premises : s.statistics.premises = f.length
  introduced : s.statistics.implied + s.statistics.resolved = (Proof.additions q).length
  deletions : s.statistics.deletions = (Proof.deletions q).length
  unmatched_le : s.statistics.unmatched ≤ s.statistics.deletions
  live : s.engine.store.live + (s.statistics.deletions - s.statistics.unmatched) =
    s.statistics.premises + s.statistics.implied + s.statistics.resolved

variable {f : Formula} {p q r : Proof} {flags : Flags} {s t u : Session} {c : Clause}

theorem Takes.statistics_add (h : s.Takes (.add c) t) (hs : s.engine.Idle)
    (hc : ∀ l ∈ c, l.isValid = true ∧ l.var ≤ s.engine.maxVar) :
    t.statistics.premises = s.statistics.premises ∧
    t.statistics.implied + t.statistics.resolved = s.statistics.implied + s.statistics.resolved + 1 ∧
    t.statistics.deletions = s.statistics.deletions ∧
    t.statistics.unmatched = s.statistics.unmatched ∧
    t.engine.store.live = s.engine.store.live + 1 := by
  have hlive : t.engine.store.live = s.engine.store.live + 1 := by
    obtain ⟨_, happly⟩ := h.keeps hs hc
    obtain ⟨hindexed, hclauses, _⟩ := hs.indexed.apply happly
    rw [hindexed.live_eq, hs.indexed.live_eq, hclauses]
    simp [Plain.apply, Plain.add]
  rcases introduce_statistics h hs hc with ⟨hcount, _⟩ | hcount
  · rw [hcount]
    exact ⟨rfl, Nat.add_right_comm _ _ _, rfl, rfl, hlive⟩
  · rw [hcount]
    exact ⟨rfl, rfl, rfl, rfl, hlive⟩

/-- A deletion takes out a live clause or is counted as unmatched. -/
theorem Takes.statistics_delete (h : s.Takes (.delete c) t) (hs : s.engine.Idle) :
    t.statistics.premises = s.statistics.premises ∧
    t.statistics.implied + t.statistics.resolved = s.statistics.implied + s.statistics.resolved ∧
    t.statistics.deletions = s.statistics.deletions + 1 ∧
    t.statistics.unmatched ≤ s.statistics.unmatched + 1 ∧
    s.engine.store.live + t.statistics.unmatched =
      t.engine.store.live + s.statistics.unmatched + 1 := by
  obtain ⟨found, hfound, hcount⟩ := delete_statistics h
  rw [hcount]
  rcases hs.delete c with ⟨hnone, _⟩ | ⟨e, older, id, d, newer, hsome, he, _, _, hwithout⟩
  · obtain ⟨rfl, heq⟩ := Prod.mk.inj (Except.ok.inj (hnone.symm.trans hfound))
    rw [← heq]
    exact ⟨rfl, rfl, rfl, Nat.le_refl _, rfl⟩
  · obtain ⟨rfl, rfl⟩ := Prod.mk.inj (Except.ok.inj (hsome.symm.trans hfound))
    rw [hwithout.live hs.indexed he.indexed]
    exact ⟨rfl, rfl, rfl, Nat.le_succ _, Nat.add_right_comm _ _ _⟩

theorem Tallied.takes {step : Step} (h : s.Tallied f q) (hs : s.engine.Idle)
    (hc : ∀ l ∈ step.literals, l.isValid = true ∧ l.var ≤ s.engine.maxVar) (ht : s.Takes step t) :
    t.Tallied f (q ++ [step]) := by
  obtain ⟨hpremises, hintroduced, hdeletions, hle, hlive⟩ := h
  cases step with
  | add c =>
    have hadditions : (Proof.additions (q ++ [.add c])).length = (Proof.additions q).length + 1 := by
      simp [Proof.additions, Step.added?]
    have hdeleted : Proof.deletions (q ++ [.add c]) = Proof.deletions q := by
      simp [Proof.deletions, Step.deleted?]
    obtain ⟨hp, hi, hd, hu, hl⟩ := ht.statistics_add hs hc
    refine ⟨hp.trans hpremises, ?_, ?_, ?_, ?_⟩
    · rw [hi, hadditions, hintroduced]
    · rw [hd, hdeleted, hdeletions]
    · omega
    · omega
  | delete c =>
    have hadditions : Proof.additions (q ++ [.delete c]) = Proof.additions q := by
      simp [Proof.additions, Step.added?]
    have hdeleted : (Proof.deletions (q ++ [.delete c])).length = (Proof.deletions q).length + 1 := by
      simp [Proof.deletions, Step.deleted?]
    obtain ⟨hp, hi, hd, hu, hl⟩ := ht.statistics_delete hs
    refine ⟨hp.trans hpremises, ?_, ?_, ?_, ?_⟩
    · rw [hi, hadditions, hintroduced]
    · rw [hd, hdeleted, hdeletions]
    · omega
    · omega

theorem Tallied.accepts (h : s.Tallied f q) (hs : s.engine.Idle) (hr : r.Within s.engine.maxVar)
    (ha : s.Accepts r t) : t.Tallied f (q ++ r) := by
  induction ha generalizing q with
  | done s => rwa [List.append_nil]
  | @next s t u step r ht _ ih =>
    obtain ⟨hkeeps, _⟩ := ht.keeps hs hr.head
    have hrest := ih (h.takes hs hr.head ht) hkeeps.idle (hkeeps.maxVar.symm ▸ hr.tail)
    rwa [List.append_assoc] at hrest

theorem Loaded.tallied (h : Loaded f p flags s) (hs : start f p flags = .ok s) :
    s.processing.Tallied f [] := by
  have hlive : s.engine.store.live = f.length := by
    rw [h.idle.indexed.live_eq, h.clauses.1, List.length_map]
  have hstatistics : s.processing.statistics = _ := start_statistics (s := s) hs
  refine ⟨?_, ?_, ?_, ?_, ?_⟩
  · rw [hstatistics]
  · rw [hstatistics]
    rfl
  · rw [hstatistics]
    rfl
  · simp [hstatistics]
  · rw [hstatistics]
    exact hlive

theorem Tallied.congr (h : t.Tallied f q) (hstore : u.engine.store = t.engine.store)
    (hcount : u.statistics = t.statistics) : u.Tallied f q := by
  obtain ⟨hpremises, hintroduced, hdeletions, hle, hlive⟩ := h
  rw [← hcount] at hpremises hintroduced hdeletions hle hlive
  exact ⟨hpremises, hintroduced, hdeletions, hle, hstore ▸ hlive⟩

/-- Why a run of `p` has ended after `n` steps, with `cs` as the live clauses, and its verdict with all
    evidence. -/
inductive Stops (mode : Mode) (cs : List Clause) (p : Proof) : Nat → Verdict → Prop where
  | derived : mode = .derivation → Stops mode cs p p.length .valid
  | lacking : mode = .full → Step.add [] ∉ p →
      Stops mode cs p p.length ⟨.invalid, none, some (Proof.additions p), none, none⟩
  | completed {n : Nat} : mode = .full → Step.add [] ∉ p.take n → p[n]? = some (.add []) →
      Stops mode cs p (n + 1) .valid
  | rejected {n : Nat} {c : Clause} {rup : RupFailure} {rat : Option RatFailure} :
      (mode = .full → Step.add [] ∉ p.take n) → p[n]? = some (.add c) →
      Plain.objection? cs c = some (rup, rat) →
      Stops mode cs p n ⟨.invalid, some (n + 1), some (Proof.additions (p.take n)), some rup, rat⟩

/-- The phase in which a run with the given outcome ends. -/
def endPhase : Outcome → Phase
  | .valid => .doneValid
  | .invalid => .doneInvalid

theorem Reaches.stops {v : Verdict} (h : Reaches f s q r t)
    (hrun : t.advance (q.length + 1) r = .ok (u, v)) :
    ∃ n w x, s.processing.Accepts ((q ++ r).take n) x ∧ u.engine.store = x.engine.store ∧
      u.statistics = x.statistics ∧ Stops t.flags.mode u.engine.store.clauses (q ++ r) n w ∧
      v = w.shown t.flags.evidence ∧ u.phase = endPhase v.outcome := by
  cases h.closes hrun with
  | derived hm =>
    rw [List.append_nil]
    refine ⟨q.length, .valid, t, ?_, rfl, rfl, .derived hm, (Verdict.shown_valid _).symm, rfl⟩
    rw [List.take_length]
    exact h.accepts
  | lacking hm =>
    rw [List.append_nil, Verdict.outcome_shown]
    refine ⟨q.length, _, t, ?_, rfl, rfl, .lacking hm (h.free hm), rfl, rfl⟩
    rw [List.take_length]
    exact h.accepts
  | @completed r x hm hx =>
    refine ⟨q.length + 1, .valid, x, ?_, rfl, rfl, .completed hm ?_ ?_, (Verdict.shown_valid _).symm,
      rfl⟩
    · rw [Proof.take_succ_length]
      exact h.accepts.append (.next hx (.done x))
    · rw [List.take_left]
      exact h.free hm
    · simp
  | @rejected c r rup rat x hobj _ hstore hcount =>
    have htake : (q ++ .add c :: r).take q.length = q := List.take_left
    rw [Verdict.outcome_shown]
    refine ⟨q.length, ⟨.invalid, some (q.length + 1), some (Proof.additions q), some rup, rat⟩, t, ?_,
      hstore, hcount, ?_, rfl, rfl⟩
    · rw [htake]
      exact h.accepts
    · have hnth : (q ++ .add c :: r)[q.length]? = some (.add c) := by simp
      have hstop := Stops.rejected (htake.symm ▸ h.free) hnth (hstore.symm ▸ hobj)
      rwa [htake] at hstop

end Session

/-- A run ends unless there are too many clauses. It has then taken the first `n` steps and stopped for
    one of four reasons; its store is the one that these steps give unchecked, and its counters are
    those of these steps. -/
theorem run_replays (f : Formula) (p : Proof) (mode : Mode) (evidence : Bool) (hf : f.Valid)
    (hp : p.Valid) :
    ((do (← Session.start f p ⟨mode, evidence⟩).run) = .error .identifierRange ∧
      maxIdentifier + 1 < f.length + (Proof.additions p).length) ∨
    ∃ u v n w, (do (← Session.start f p ⟨mode, evidence⟩).run) = .ok (u, v) ∧
      Plain.Unopposed (f.map List.eraseDups) (p.take n) ∧
      Session.Stops mode u.engine.store.clauses p n w ∧ v = w.shown evidence ∧
      Store.replay f (p.take n) = .ok u.engine.store ∧ u.Tallied f (p.take n) ∧
      u.phase = Session.endPhase v.outcome := by
  rcases run_cases hf hp ⟨mode, evidence⟩ with ⟨s, u, v, hs, hrun⟩ | herror
  · right
    obtain ⟨hready, hloaded⟩ := Session.loaded_of_start hf hs
    obtain ⟨q, r, t, hsplit, hr⟩ := hloaded.reaches hready hp
    obtain ⟨n, w, x, ha, hstore, hcount, hstops, hv, hphase⟩ := hr.stops (hr.run.symm.trans hrun)
    rw [← hsplit] at ha hstops
    rw [hr.flags, hloaded.flags] at hstops hv
    have hwithin := hloaded.within_prefix hp (List.take_prefix n p)
    refine ⟨u, v, n, w, Checked.bind_eq_ok.2 ⟨s, hs, hrun⟩, ?_, hstops, hv, ?_, ?_, hphase⟩
    · rw [← hloaded.clauses.1]
      exact ha.unopposed hloaded.idle hwithin
    · rw [hstore]
      exact hloaded.replay hp (List.take_prefix n p) ha
    · exact ((hloaded.tallied hs).accepts hloaded.idle hwithin ha).congr hstore hcount
  · exact .inl herror

/-- Three steps are committed: an addition that is not implied, a deletion and a deletion of a clause
    that is not there. The fourth step is rejected, and the last one would be accepted. -/
theorem run_replays_rejection :
    ∃ u v, (do (← Session.start (Check.formulaOf [[1, 2], [-1, 2]])
        (Check.proofOf [.add [3, -2], .delete [2, 1], .delete [4], .add [-2], .add [-1, 3]])
        ⟨.full, true⟩).run) = .ok (u, v) ∧ v.step = some 4 ∧
      Store.replay (Check.formulaOf [[1, 2], [-1, 2]])
        (Check.proofOf [.add [3, -2], .delete [2, 1], .delete [4]]) = .ok u.engine.store ∧
      u.statistics = ⟨2, 5, 0, 1, 2, 1⟩ ∧ u.engine.store.live + (2 - 1) = 2 + 0 + 1 ∧
      u.phase = .doneInvalid := by
  let f := Check.formulaOf [[1, 2], [-1, 2]]
  let p := Check.proofOf [.add [3, -2], .delete [2, 1], .delete [4], .add [-2], .add [-1, 3]]
  have hend : (do (← Session.start f p ⟨.full, true⟩).run).map
      (fun x : Session × Verdict => (x.2.outcome, x.2.step, x.1.statistics)) =
      .ok (.invalid, some 4, ⟨2, 5, 0, 1, 2, 1⟩) := by decide +kernel
  rcases run_replays f p .full true (Check.valid_formulaOf (by decide)) (Check.valid_proofOf (by decide))
    with ⟨_, hlt⟩ | ⟨u, v, n, w, hrun, _, hstops, hv, hreplay, htallied, hphase⟩
  · exact absurd hlt (by decide)
  · obtain rfl : v = w := hv
    rw [hrun] at hend
    obtain ⟨hout, hstep, hcount⟩ : v.outcome = .invalid ∧ v.step = some 4 ∧ u.statistics = _ := by
      simpa [Except.map] using hend
    have hlive := htallied.live
    rw [hcount] at hlive
    refine ⟨u, v, hrun, hstep, ?_, hcount, hlive, hphase.trans (congrArg _ hout)⟩
    cases hstops with
    | derived => cases hout
    | lacking => cases hstep
    | completed => cases hout
    | rejected =>
      cases hstep
      exact hreplay

end ClausalProof
