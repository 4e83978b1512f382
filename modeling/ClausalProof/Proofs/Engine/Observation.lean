import ClausalProof.Proofs.Engine.Implication

set_option autoImplicit false

/-!
Checks cannot be observed. A check leaves watches in other places and watch lists in another order, and
nothing puts them back. Two idle engines that differ in nothing else are twins: every call makes both
fault alike, or has the same answer from both and leaves twins behind. So no later call tells whether
checks have been made.
-/
namespace ClausalProof.Engine

/-- Idle engines with the same clauses, whose watches may stand in different places. -/
structure Twins (e f : Engine) : Prop where
  left : e.Idle
  right : f.Idle
  store : f.store = e.store
  maxVar : f.maxVar = e.maxVar

/-- Two calls end alike. -/
inductive Agree {α : Type} : Checked (Engine × α) → Checked (Engine × α) → Prop where
  | faults (fault : Fault) : Agree (.error fault) (.error fault)
  | answers {e f : Engine} {a : α} (h : Twins e f) : Agree (.ok (e, a)) (.ok (f, a))

theorem Agree.bind {α β : Type} {x y : Checked (Engine × α)}
    {k : Engine × α → Checked (Engine × β)} (h : Agree x y)
    (hk : ∀ e f a, Twins e f → Agree (k (e, a)) (k (f, a))) : Agree (x >>= k) (y >>= k) := by
  cases h with
  | faults fault => exact .faults fault
  | answers h => exact hk _ _ _ h

theorem Agree.answer_eq {α : Type} {x y : Checked (Engine × α)} (h : Agree x y) :
    Prod.snd <$> x = Prod.snd <$> y := by
  cases h <;> rfl

/-- An assignment looks at the trail only, and changes nothing else. -/
theorem assign_eq_map {e f : Engine} (h : f.trail = e.trail) (l : Literal) (reason : Reason) :
    f.assign l reason =
      (e.assign l reason).map fun x => ({ f with trail := x.1.trail }, x.2) := by
  have hsame : { f with trail := e.trail } = f := by rw [← h]
  simp only [Engine.assign, h]
  cases e.trail.value (-l) with
  | error fault => rfl
  | ok isFalse =>
    cases isFalse with
    | true => simp [bind, Except.bind, pure, Except.pure, Except.map, hsame]
    | false =>
      cases e.trail.value l with
      | error fault => rfl
      | ok isTrue =>
        cases isTrue with
        | true => simp [bind, Except.bind, pure, Except.pure, Except.map, hsame]
        | false => cases e.trail.push l reason <;> rfl

theorem assume_eq_map {e f : Engine} (h : f.trail = e.trail) (c : Clause) :
    f.assume c = (e.assume c).map fun x => ({ f with trail := x.1.trail }, x.2) := by
  induction c generalizing e f with
  | nil => simp [Engine.assume, Except.map, ← h]
  | cons l c ih =>
    rw [Engine.assume, Engine.assume, assign_eq_map h]
    cases e.assign (-l) .assumed with
    | error fault => rfl
    | ok x =>
      obtain ⟨g, p⟩ := x
      cases p with
      | conflict => rfl
      | quiet => exact ih (f := { f with trail := g.trail }) rfl

namespace Twins

variable {e f g : Engine}

theorem refl (h : e.Idle) : Twins e e := ⟨h, h, rfl, rfl⟩

theorem trans (h : Twins e f) (k : Twins f g) : Twins e g :=
  ⟨h.left, k.right, k.store.trans h.store, k.maxVar.trans h.maxVar⟩

theorem trail_eq (h : Twins e f) : f.trail = e.trail := by
  rw [h.right.trail, h.left.trail, h.maxVar]

theorem units_eq (h : Twins e f) : f.units = e.units := by
  rw [h.right.units, h.left.units, h.store]

theorem emptyCount_eq (h : Twins e f) : f.emptyCount = e.emptyCount := by
  rw [h.right.empties, h.left.empties, h.store]

theorem eq_but_watches (h : Twins e f) :
    f = { e with watchers := f.watchers, watches := f.watches } := by
  have hprocessed : f.processed = e.processed := h.right.processed.trans h.left.processed.symm
  rw [← h.store, ← h.maxVar, ← h.trail_eq, ← h.units_eq, ← h.emptyCount_eq, ← hprocessed]

/-- What twins have assigned to refute a clause is undone on both. -/
theorem backtrack {e' f' : Engine} {c : Clause} {p : Progress} (h : Twins e f)
    (he : e.refute c = .ok (e', p)) (hf : f.refute c = .ok (f', p)) :
    ∃ e'' f'', e'.backtrack = .ok e'' ∧ f'.backtrack = .ok f'' ∧ Twins e'' f'' := by
  obtain ⟨e'', heb, hei, hes, hem, _⟩ := h.left.of_refute he
  obtain ⟨f'', hfb, hfi, hfs, hfm, _⟩ := h.right.of_refute hf
  exact ⟨e'', f'', heb, hfb, hei, hfi, by rw [hfs, hes, h.store], by rw [hfm, hem, h.maxVar]⟩

/-- Twins run into a conflict on the same clauses, and into a fault at the same literal. -/
theorem refute (h : Twins e f) (c : Clause) :
    (∃ fault, e.refute c = .error fault ∧ f.refute c = .error fault) ∨
    ∃ e' f' p, e.refute c = .ok (e', p) ∧ f.refute c = .ok (f', p) := by
  by_cases hc : ∀ l ∈ c, l.isValid = true ∧ l.var ≤ e.maxVar
  · right
    obtain ⟨e', p, he, _, _, hclash, hrests⟩ := h.left.refute_closure hc
    obtain ⟨f', q, hf, _, _, hclash', hrests'⟩ := h.right.refute_closure (h.maxVar.symm ▸ hc)
    rw [h.store] at hclash' hrests'
    refine ⟨e', f', p, he, ?_⟩
    cases p with
    | conflict =>
      cases q with
      | conflict => exact hf
      | quiet => exact absurd (hclash rfl) (hrests' rfl).1.not_clash
    | quiet =>
      cases q with
      | conflict => exact absurd (hclash' rfl) (hrests rfl).1.not_clash
      | quiet => exact hf
  · have hnil : f.hasEmptyClause = e.hasEmptyClause := by
      rw [hasEmptyClause, hasEmptyClause, h.emptyCount_eq]
    rw [Engine.refute, Engine.refute, h.left.trail_isEmpty, h.right.trail_isEmpty, hnil,
      assume_eq_map h.trail_eq]
    cases e.hasEmptyClause with
    | true => exact .inr ⟨e, f, .conflict, rfl, rfl⟩
    | false =>
      cases hassume : e.assume c with
      | error fault => exact .inl ⟨fault, rfl, rfl⟩
      | ok x =>
        obtain ⟨e', p⟩ := x
        cases p with
        | conflict => exact .inr ⟨e', _, .conflict, rfl, rfl⟩
        | quiet =>
          -- all literals have been read, so none of them is unknown
          obtain ⟨q, _, hknown, _, hquiet⟩ := h.left.running.exists_known_of_assume hassume
          exact absurd (hquiet rfl ▸ hknown) hc

theorem checkImplied (h : Twins e f) (c reported : Clause) (evidence : Bool) :
    Agree (e.checkImplied c reported evidence) (f.checkImplied c reported evidence) := by
  by_cases hc : ∀ l ∈ c, l.isValid = true ∧ l.var ≤ e.maxVar
  · obtain ⟨e', he, hei, hes, hem⟩ := h.left.checkImplied hc
    obtain ⟨f', hf, hfi, hfs, hfm⟩ := h.right.checkImplied (h.maxVar.symm ▸ hc)
    rw [he, hf, h.store]
    rcases impliedAnswer_cases e.store reported evidence (Plain.rest? e.store.clauses c) with
      hanswer | ⟨hanswer, _⟩
    · rw [hanswer]
      exact .answers ⟨hei, hfi, by rw [hfs, hes, h.store], by rw [hfm, hem, h.maxVar]⟩
    · rw [hanswer]
      exact .faults .identifierRange
  · rcases h.refute c with ⟨fault, he, hf⟩ | ⟨e', f', p, he, hf⟩
    · rw [Engine.checkImplied, Engine.checkImplied, he, hf]
      exact .faults fault
    · cases p with
      | quiet =>
        obtain ⟨q, _, hknown, _, hquiet⟩ := h.left.exists_known_of_refute he
        exact absurd (hquiet rfl ▸ hknown) hc
      | conflict =>
        obtain ⟨e'', f'', heb, hfb, htwins⟩ := h.backtrack he hf
        rw [← h.left.restore_eq] at heb
        rw [← h.right.restore_eq] at hfb
        rw [Engine.checkImplied, Engine.checkImplied, he, hf]
        simp only [bind, Except.bind, heb, hfb]
        exact .answers htwins

theorem checkResolvents (h : Twins e f) (c : Clause) (pivot : Literal) (evidence : Bool)
    (xs : List (Nat × Clause)) :
    Agree (e.checkResolvents c pivot evidence xs) (f.checkResolvents c pivot evidence xs) := by
  induction xs generalizing e f with
  | nil => exact .answers h
  | cons x xs ih =>
    rw [Engine.checkResolvents, Engine.checkResolvents]
    split
    · exact ih h
    · refine (h.checkImplied _ c evidence).bind fun e' f' judgment h' => ?_
      cases judgment with
      | holds => exact ih h'
      | fails why => exact .answers h'

theorem checkResolved (h : Twins e f) (c : Clause) (evidence : Bool) :
    Agree (e.checkResolved c evidence) (f.checkResolved c evidence) := by
  cases c with
  | nil => exact .answers h
  | cons p c =>
    have hcandidates : f.candidates p = e.candidates p := by rw [candidates, candidates, h.store]
    rw [Engine.checkResolved, Engine.checkResolved, hcandidates]
    cases e.candidates p with
    | error fault => exact .faults fault
    | ok xs => exact h.checkResolvents (p :: c) p evidence xs

theorem perform_add (h : Twins e f) {c : Clause} (hc : ∀ l ∈ c, l.isValid = true) (derived : Bool) :
    Agree (e.perform (.add c derived)) (f.perform (.add c derived)) := by
  by_cases hvars : ∀ l ∈ c, l.var ≤ e.maxVar
  · have hce : ∀ l ∈ c, l.isValid = true ∧ l.var ≤ e.maxVar := fun l hl => ⟨hc l hl, hvars l hl⟩
    have hcf : ∀ l ∈ c, l.isValid = true ∧ l.var ≤ f.maxVar := h.maxVar.symm ▸ hce
    by_cases hs : e.store.size ≤ maxIdentifier
    · obtain ⟨e', he, hei, hem, hes, _⟩ := h.left.add derived hce hs
      obtain ⟨f', hf, hfi, hfm, hfs, _⟩ := h.right.add derived hcf (h.store.symm ▸ hs)
      rw [h.store] at hf hfs
      obtain ⟨_, hstore⟩ := Prod.mk.inj (Except.ok.inj (hfs.symm.trans hes))
      simp only [Engine.perform, he, hf, bind, Except.bind]
      exact .answers ⟨hei, hfi, hstore, by rw [hfm, hem, h.maxVar]⟩
    · have he := h.left.add_overflow derived hce (by omega)
      have hf := h.right.add_overflow derived hcf (by rw [h.store]; omega)
      simp only [Engine.perform, he, hf, bind, Except.bind]
      exact .faults .identifierRange
  · have he := h.left.add_unknown derived hvars
    have hf := h.right.add_unknown derived (h.maxVar.symm ▸ hvars)
    simp only [Engine.perform, he, hf, bind, Except.bind]
    exact .faults .unknownVariable

theorem perform_delete (h : Twins e f) (c : Clause) :
    Agree (e.perform (.delete c)) (f.perform (.delete c)) := by
  rcases h.left.delete c with ⟨he, hes, _⟩ | ⟨e', _, id, _, _, he, hei, hem, hes, _⟩
  · rcases h.right.delete c with ⟨hf, _⟩ | ⟨f', _, id', _, _, _, _, _, hfs, _⟩
    · simp only [Engine.perform, he, hf, bind, Except.bind]
      exact .answers h
    · rw [h.store] at hfs
      cases hes.symm.trans hfs
  · rcases h.right.delete c with ⟨_, hfs, _⟩ | ⟨f', _, id', _, _, hf, hfi, hfm, hfs, _⟩
    · rw [h.store] at hfs
      cases hes.symm.trans hfs
    · rw [h.store] at hfs
      obtain ⟨hid, hstore⟩ := Prod.mk.inj (Except.ok.inj (hfs.symm.trans hes))
      simp only [Engine.perform, he, hf, hid, bind, Except.bind]
      exact .answers ⟨hei, hfi, hstore, by rw [hfm, hem, h.maxVar]⟩

theorem perform_refute (h : Twins e f) (c : Clause) :
    Agree (e.perform (.refute c)) (f.perform (.refute c)) := by
  rcases h.refute c with ⟨fault, he, hf⟩ | ⟨e', f', p, he, hf⟩
  · rw [Engine.perform, Engine.perform, he, hf]
    exact .faults fault
  · obtain ⟨e'', f'', heb, hfb, htwins⟩ := h.backtrack he hf
    simp only [Engine.perform, he, hf, heb, hfb, bind, Except.bind]
    exact .answers htwins

theorem perform (h : Twins e f) {op : Operation} (hop : ∀ l ∈ op.clause, l.isValid = true) :
    Agree (e.perform op) (f.perform op) := by
  cases op with
  | add c derived => exact h.perform_add hop derived
  | delete c => exact h.perform_delete c
  | checkImplied c reported evidence =>
    exact (h.checkImplied c reported evidence).bind fun _ _ _ h' => .answers h'
  | checkResolved c evidence =>
    exact (h.checkResolved c evidence).bind fun _ _ _ h' => .answers h'
  | refute c => exact h.perform_refute c

theorem performAll (h : Twins e f) {ops : List Operation}
    (hops : ∀ op ∈ ops, ∀ l ∈ op.clause, l.isValid = true) :
    Agree (e.performAll ops) (f.performAll ops) := by
  induction ops generalizing e f with
  | nil => exact .answers h
  | cons op ops ih =>
    obtain ⟨hop, hops⟩ := List.forall_mem_cons.1 hops
    exact (h.perform hop).bind fun _ _ _ h' => (ih h' hops).bind fun _ _ _ h'' => .answers h''

end Twins

/-- Checks leave a twin of the engine, if they return. -/
theorem Idle.performAll_checks {e : Engine} {ops : List Operation} (h : e.Idle)
    (hops : ∀ op ∈ ops, op.isCheck = true ∧ op.Within e.maxVar) :
    (∃ f replies, e.performAll ops = .ok (f, replies) ∧ Twins e f) ∨
    (e.performAll ops = .error .identifierRange ∧ maxIdentifier < e.store.size) := by
  induction ops generalizing e with
  | nil => exact .inl ⟨e, [], rfl, .refl h⟩
  | cons op ops ih =>
    obtain ⟨⟨hcheck, hop⟩, hops⟩ := List.forall_mem_cons.1 hops
    rcases h.perform_check hcheck hop with ⟨f, reply, hf, hidle, hstore, hmax⟩ | ⟨hf, hlt⟩
    · have htwins : Twins e f := ⟨h, hidle, hstore, hmax⟩
      rcases ih hidle (hmax.symm ▸ hops) with ⟨g, replies, hg, htwins'⟩ | ⟨hg, hlt⟩
      · refine .inl ⟨g, reply :: replies, ?_, htwins.trans htwins'⟩
        simp [Engine.performAll, hf, hg, bind, Except.bind, pure, Except.pure]
      · refine .inr ⟨?_, hstore ▸ hlt⟩
        simp [Engine.performAll, hf, hg, bind, Except.bind]
    · refine .inr ⟨?_, hlt⟩
      simp [Engine.performAll, hf, bind, Except.bind]

/-- Checks move watches and nothing else, and whatever is done later, with clauses of whatever
    variables, has the answers that it would have had without them. They return as long as the number
    of clauses is an identifier. -/
theorem performAll_after_checks (n : Nat) (e : Engine) (he : e.Reached n)
    (checks later : List Operation) (hchecks : ∀ op ∈ checks, op.isCheck = true ∧ op.Within n)
    (hlater : ∀ op ∈ later, ∀ l ∈ op.clause, l.isValid = true) :
    (∃ f replies, e.performAll checks = .ok (f, replies) ∧
      f = { e with watchers := f.watchers, watches := f.watches } ∧
      f.trail = .empty n ∧ f.processed = 0 ∧
      Prod.snd <$> f.performAll later = Prod.snd <$> e.performAll later) ∨
    (maxIdentifier < e.store.size ∧ e.performAll checks = .error .identifierRange) := by
  obtain ⟨hidle, rfl⟩ := he.idle
  rcases hidle.performAll_checks hchecks with ⟨f, replies, hf, htwins⟩ | ⟨hf, hlt⟩
  · refine .inl ⟨f, replies, hf, htwins.eq_but_watches, ?_, htwins.right.processed, ?_⟩
    · rw [htwins.trail_eq, hidle.trail]
    · exact (htwins.performAll hlater).answer_eq.symm
  · exact .inr ⟨hlt, hf⟩

def threeClauses : List Operation :=
  [.add [⟨1, false⟩, ⟨2, false⟩, ⟨5, false⟩] false, .add [⟨2, true⟩, ⟨3, false⟩] false,
    .add [⟨1, false⟩, ⟨4, false⟩] false]

/-- Both fail, and the second moves the watch that the first has left. -/
def failingChecks : List Operation :=
  [.checkImplied [⟨2, false⟩, ⟨3, false⟩] [] true, .checkResolved [⟨2, false⟩, ⟨1, false⟩] true]

/-- The last check is over before it comes to a variable beyond the tables. -/
def laterCalls : List Operation :=
  [.checkImplied [⟨1, false⟩, ⟨5, false⟩] [] true, .delete [⟨4, false⟩, ⟨1, false⟩],
    .add [⟨5, false⟩, ⟨3, false⟩] true, .checkResolved [⟨3, true⟩, ⟨5, false⟩] true,
    .checkImplied [⟨1, false⟩, ⟨1, true⟩, ⟨9, false⟩] [] true]

def laterReplies : List Reply :=
  [.implied (.fails (some ⟨[], [⟨1, true⟩, ⟨5, true⟩, ⟨2, false⟩, ⟨3, false⟩, ⟨4, false⟩]⟩)),
    .deleted (some 2), .added 3,
    .resolved (.fails (some ⟨[⟨3, true⟩, ⟨5, false⟩], [⟨2, true⟩, ⟨3, false⟩],
      ⟨[⟨3, true⟩, ⟨5, false⟩], [⟨5, true⟩, ⟨2, false⟩, ⟨3, false⟩]⟩⟩)),
    .implied .holds]

theorem performAll_after_checks_moved :
    ∃ e f replies replies', (empty 5).performAll threeClauses = .ok (e, replies) ∧
      e.performAll failingChecks = .ok (f, replies') ∧
      e.watches = #[⟨0, 1⟩, ⟨0, 1⟩, ⟨0, 1⟩] ∧ f.watches = #[⟨1, 2⟩, ⟨0, 1⟩, ⟨0, 1⟩] ∧
      f.store = e.store ∧ Prod.snd <$> f.performAll laterCalls = .ok laterReplies := by
  have hrun : (do
      let x ← (empty 5).performAll threeClauses
      let y ← x.1.performAll failingChecks
      let z ← x.1.performAll laterCalls
      return (x.1.watches, y.1.watches, z.2)) =
      .ok (#[⟨0, 1⟩, ⟨0, 1⟩, ⟨0, 1⟩], #[⟨1, 2⟩, ⟨0, 1⟩, ⟨0, 1⟩], laterReplies) := by decide +kernel
  obtain ⟨⟨e, replies⟩, he, hrun⟩ := Checked.bind_eq_ok.1 hrun
  obtain ⟨⟨f, replies'⟩, hf, hrun⟩ := Checked.bind_eq_ok.1 hrun
  obtain ⟨⟨g, answers⟩, hg, hrun⟩ := Checked.bind_eq_ok.1 hrun
  obtain ⟨hwatches, hmoved, rfl⟩ : e.watches = _ ∧ f.watches = _ ∧ answers = _ := by
    simpa using Checked.pure_eq_ok.1 hrun
  rcases performAll_after_checks 5 e ⟨threeClauses, replies, by decide, he⟩ failingChecks laterCalls
    (by decide) (by decide) with ⟨f', _, hf', hsame, _, _, hlater⟩ | ⟨_, herror⟩
  · cases hf.symm.trans hf'
    refine ⟨e, f, replies, replies', he, hf, hwatches, hmoved, by rw [hsame], ?_⟩
    rw [hlater, hg]
    rfl
  · cases hf.symm.trans herror

end ClausalProof.Engine
