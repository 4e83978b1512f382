import ClausalProof.Redundancy.Resolved
import ClausalProof.Proofs.Engine.Propagation

set_option autoImplicit false

/-!
The redundancy checks of an idle engine answer as the plain checker does on the live clauses, with
the same evidence, and leave the engine idle with the same clauses. Refuting a clause reaches a
conflict exactly if the closure of its negated literals clashes, and otherwise ends in that closure.
-/
namespace ClausalProof.Engine

/-- A property of trails that holds on when the negation of a literal of `c` is assumed. -/
def KeptByAssuming (c : Clause) (Q : Trail → Prop) : Prop :=
  ∀ t u l, l ∈ c → t.push (-l) .assumed = .ok u → Q t → Q u

/-- What assigning a literal can do: it is false, it is true already, or it is pushed. -/
theorem Running.assign_cases {e : Engine} {l : Literal} (h : e.Running) (reason : Reason)
    (hv : l.isValid = true) (hl : l.var ≤ e.maxVar) :
    (e.assign l reason = .ok (e, .conflict) ∧ -l ∈ e.trail.literals) ∨
    (e.assign l reason = .ok (e, .quiet) ∧ l ∈ e.trail.literals) ∨
    ∃ t, e.assign l reason = .ok ({ e with trail := t }, .quiet) ∧ e.trail.push l reason = .ok t ∧
      Running { e with trail := t } ∧ t.literals = e.trail.literals ++ [l] := by
  have hvalue := h.faithful.value hl
  have hvalue' := h.faithful.value (l := -l) hl
  by_cases hneg : -l ∈ e.trail.literals
  · refine .inl ⟨?_, hneg⟩
    simp [Engine.assign, hvalue', hneg, bind, Except.bind, pure, Except.pure]
  right
  by_cases hpos : l ∈ e.trail.literals
  · refine .inl ⟨?_, hpos⟩
    simp [Engine.assign, hvalue, hvalue', hneg, hpos, bind, Except.bind, pure, Except.pure]
  · obtain ⟨t, hpush, hft, _, hlits⟩ := h.faithful.push reason hv hl ⟨hpos, hneg⟩
    refine .inr ⟨t, ?_, hpush, ⟨{ h.toArranged with }, hft, ?_⟩, hlits⟩
    · simp [Engine.assign, hvalue, hvalue', hneg, hpos, hpush, bind, Except.bind, pure, Except.pure]
    · rw [← Trail.literals_length, hlits, List.length_append, Trail.literals_length]
      exact Nat.le_add_right_of_le h.processed_le

/-- Assigning a literal fails only if it is false. -/
theorem Running.assign {e : Engine} {l : Literal} {Q : Trail → Prop} (h : e.Running)
    (reason : Reason) (hv : l.isValid = true) (hl : l.var ≤ e.maxVar)
    (hQ : ∀ u, e.trail.push l reason = .ok u → Q e.trail → Q u) (he : Q e.trail) :
    (e.assign l reason = .ok (e, .conflict) ∧ -l ∈ e.trail.literals) ∨
    ∃ f, e.assign l reason = .ok (f, .quiet) ∧ Onward e f ∧ f.processed = e.processed ∧
      f.Running ∧ Q f.trail ∧ l ∈ f.trail.literals := by
  rcases h.assign_cases reason hv hl with hneg | ⟨hassign, hpos⟩ | ⟨t, hassign, hpush, hrunning, hlits⟩
  · exact .inl hneg
  · exact .inr ⟨e, hassign, .refl e, rfl, h, he, hpos⟩
  · refine .inr ⟨_, hassign, ⟨rfl, rfl, rfl, rfl, ?_⟩, rfl, hrunning, hQ t hpush he, ?_⟩
    · rw [hlits]
      exact List.prefix_append _ _
    · rw [hlits]
      simp

theorem Running.assume {e : Engine} {c : Clause} {Q : Trail → Prop} (h : e.Running)
    (hc : ∀ l ∈ c, l.isValid = true ∧ l.var ≤ e.maxVar) (hQ : KeptByAssuming c Q) (he : Q e.trail) :
    ∃ f p, e.assume c = .ok (f, p) ∧ Onward e f ∧ f.processed = e.processed ∧ f.Running ∧
      Q f.trail ∧ (p = .quiet → ∀ l ∈ c, -l ∈ f.trail.literals) ∧
      (p = .conflict → ∃ l ∈ c, l ∈ f.trail.literals) := by
  induction c generalizing e with
  | nil => exact ⟨e, .quiet, rfl, .refl e, rfl, h, he, by simp, by simp⟩
  | cons l c ih =>
    obtain ⟨hv, hl⟩ := hc l List.mem_cons_self
    rcases h.assign (l := -l) .assumed hv hl
        (fun u hu => hQ _ u l List.mem_cons_self hu) he with
      ⟨hassign, hneg⟩ | ⟨f, hassign, hon, hp, hf, hQf, hmem⟩
    · refine ⟨e, .conflict, ?_, .refl e, rfl, h, he, by simp, fun _ => ⟨l, List.mem_cons_self, ?_⟩⟩
      · rw [Engine.assume, hassign]
        rfl
      · rwa [Literal.neg_neg] at hneg
    · obtain ⟨g, p, hg, hog, hpg, hgr, hQg, hquiet, hconflict⟩ := ih hf
        (fun m hm => hon.maxVar.symm ▸ hc m (List.mem_cons_of_mem _ hm))
        (fun t u m hm => hQ t u m (List.mem_cons_of_mem _ hm)) hQf
      refine ⟨g, p, ?_, hon.trans hog, hpg.trans hp, hgr, hQg, ?_, ?_⟩
      · rw [Engine.assume, hassign]
        exact hg
      · intro hq m hm
        rcases List.mem_cons.1 hm with rfl | hm
        · exact hog.mem hmem
        · exact hquiet hq m hm
      · intro hq
        obtain ⟨m, hm, hmt⟩ := hconflict hq
        exact ⟨m, List.mem_cons_of_mem _ hm, hmt⟩

theorem Running.assignUnits {e : Engine} {ids : List Nat} {Q : Trail → Prop} (h : e.Running)
    (hids : ∀ id ∈ ids, ∃ l, (id, [l]) ∈ e.store.liveClauses)
    (hQ : KeptByForcing e.store.liveClauses Q) (he : Q e.trail) :
    ∃ f p, e.assignUnits ids = .ok (f, p) ∧ Onward e f ∧ f.processed = e.processed ∧ f.Running ∧
      Q f.trail ∧
      (p = .quiet → ∀ id ∈ ids, ∀ l, (id, [l]) ∈ e.store.liveClauses → l ∈ f.trail.literals) ∧
      (p = .conflict → f.Falsified) := by
  induction ids generalizing e with
  | nil => exact ⟨e, .quiet, rfl, .refl e, rfl, h, he, by simp, by simp⟩
  | cons id ids ih =>
    obtain ⟨l, hl⟩ := hids id List.mem_cons_self
    obtain ⟨hv, hvar⟩ := h.bounded hl List.mem_cons_self
    have hclause := Store.clause_of_mem hl
    have hforce : ∀ u, e.trail.push l (.forced id) = .ok u → Q e.trail → Q u := by
      intro u hu
      refine hQ _ u id [l] l hl List.mem_cons_self ?_ hu
      intro k hk hkl
      exact absurd (List.mem_singleton.1 hk) hkl
    rcases h.assign (.forced id) hv hvar hforce he with
      ⟨hassign, hneg⟩ | ⟨f, hassign, hon, hp, hf, hQf, hmem⟩
    · refine ⟨e, .conflict, ?_, .refl e, rfl, h, he, by simp, fun _ => ⟨id, [l], hl, ?_⟩⟩
      · simp [Engine.assignUnits, hclause, literalAt, hassign, bind, Except.bind, pure, Except.pure]
      · simpa using hneg
    · obtain ⟨g, p, hg, hog, hpg, hgr, hQg, hquiet, hconflict⟩ := ih hf
        (fun i hi => hon.store.symm ▸ hids i (List.mem_cons_of_mem _ hi)) (hon.store.symm ▸ hQ) hQf
      refine ⟨g, p, ?_, hon.trans hog, hpg.trans hp, hgr, hQg, ?_, hconflict⟩
      · simp [Engine.assignUnits, hclause, literalAt, hassign, hg, bind, Except.bind]
      · intro hq i hi m hm
        rcases List.mem_cons.1 hi with rfl | hi
        · obtain rfl : l = m := by simpa using Store.eq_of_mem hl hm
          exact hog.mem hmem
        · exact hquiet hq i hi m (hon.store.symm ▸ hm)

/-- Before anything is processed no watched literal counts as false. -/
theorem Running.steady {e : Engine} (h : e.Running) (hp : e.processed = 0) : e.Steady := by
  refine ⟨h, ?_⟩
  intro id a b _ hd
  simp [drawn, hp] at hd

theorem Arranged.hasEmptyClause_iff {e : Engine} (h : e.Arranged) :
    e.hasEmptyClause = true ↔ [] ∈ e.store.clauses := by
  rw [hasEmptyClause, decide_eq_true_eq, h.empties, List.countP_pos_iff, Store.mem_clauses]
  simp

theorem Arranged.mem_units {e : Engine} (h : e.Arranged) {id : Nat} :
    id ∈ e.units ↔ ∃ l, (id, [l]) ∈ e.store.liveClauses := by
  simp [h.units, List.length_eq_one_iff]

/-- Propagation that has come to its end is at rest, if the assumptions and the unit clauses are on
    the trail and no clause is empty. -/
theorem Steady.rests {e : Engine} {A : List Literal} (h : e.Steady)
    (hend : e.processed = e.trail.size) (hA : ∀ l ∈ A, l ∈ e.trail.literals)
    (hnil : [] ∉ e.store.clauses)
    (hunits : ∀ id l, (id, [l]) ∈ e.store.liveClauses → l ∈ e.trail.literals) :
    Rests e.store.clauses A e.trail.literals := by
  refine ⟨hA, h.faithful.consistent, fun d hd => ?_⟩
  obtain ⟨id, hid⟩ := Store.mem_clauses.1 hd
  match d, hd, hid with
  | [], hd, _ => exact absurd hd hnil
  | [l], _, hid => exact .inl ⟨l, List.mem_cons_self, hunits id l hid⟩
  | l :: m :: d, _, hid => exact h.stable hend hid (by simp)

/-- With an empty clause nothing is assumed. -/
theorem Idle.refute_of_nil {e : Engine} (h : e.Idle) (hnil : [] ∈ e.store.clauses) (c : Clause) :
    e.refute c = .ok (e, .conflict) := by
  simp [Engine.refute, h.trail_isEmpty, require, h.hasEmptyClause_iff.2 hnil, bind, Except.bind, pure,
    Except.pure]

theorem Idle.refute_of_conflict {e f : Engine} {c : Clause} (h : e.Idle) (hnil : [] ∉ e.store.clauses)
    (hf : e.assume c = .ok (f, .conflict)) : e.refute c = .ok (f, .conflict) := by
  have hno : e.hasEmptyClause = false := by
    rw [← Bool.not_eq_true, h.hasEmptyClause_iff]
    exact hnil
  simp [Engine.refute, h.trail_isEmpty, require, hno, hf, bind, Except.bind, pure, Except.pure]

/-- Behind the assumptions a refutation only forces literals. -/
theorem Idle.refute_of_quiet {e f : Engine} {c : Clause} {Q : Trail → Prop} (h : e.Idle)
    (hc : ∀ l ∈ c, l.isValid = true ∧ l.var ≤ e.maxVar) (hnil : [] ∉ e.store.clauses)
    (hf : e.assume c = .ok (f, .quiet)) (hF : KeptByForcing e.store.liveClauses Q) (hQf : Q f.trail) :
    ∃ k p, e.refute c = .ok (k, p) ∧ Onward e k ∧ k.Running ∧ Q k.trail ∧
      (p = .conflict → k.Falsified) ∧
      (p = .quiet → Rests e.store.clauses c.opposites k.trail.literals) := by
  have hempty := h.trail_isEmpty
  have hno : e.hasEmptyClause = false := by
    rw [← Bool.not_eq_true, h.hasEmptyClause_iff]
    exact hnil
  obtain ⟨hef, hpf, hfr, hassumed⟩ : Onward e f ∧ f.processed = e.processed ∧ f.Running ∧
      ∀ l ∈ c, -l ∈ f.trail.literals := by
    obtain ⟨f', p, hf', hef, hpf, hfr, _, hassumed, _⟩ :=
      h.running.assume (Q := fun _ => True) hc (fun _ _ _ _ _ _ => trivial) trivial
    cases hf'.symm.trans hf
    exact ⟨hef, hpf, hfr, hassumed rfl⟩
  obtain ⟨g, p, hg, hfg, hpg, hgr, hQg, hunits, hclash⟩ := hfr.assignUnits
    (fun id hid => hfr.mem_units.1 hid) (hef.store.symm ▸ hF) hQf
  have heg := hef.trans hfg
  cases p with
  | conflict =>
    refine ⟨g, .conflict, ?_, heg, hgr, hQg, fun _ => hclash rfl, by simp⟩
    simp [Engine.refute, hempty, require, hno, hf, hg, bind, Except.bind, pure, Except.pure]
  | quiet =>
  have hsteady := hgr.steady ((hpg.trans hpf).trans h.processed)
  obtain ⟨k, p, hk, hgk, hQk, hsound, hend⟩ := hsteady.propagate (Q := Q)
    (fun t u id d l hd => hF t u id d l (heg.store ▸ List.mem_of_mem_filter hd)) hQg
  have hek := heg.trans hgk
  have hkr : k.Running := by
    cases p with
    | conflict => exact hsound.1
    | quiet => exact hsound.toRunning
  refine ⟨k, p, ?_, hek, hkr, hQk, ?_, ?_⟩
  · simp [Engine.refute, hempty, require, hno, hf, hg, hk, bind, Except.bind]
  · rintro rfl
    exact hsound.2
  · rintro rfl
    have hstore : k.store.clauses = e.store.clauses := congrArg Store.clauses hek.store
    rw [← hstore]
    refine Steady.rests hsound (hend rfl) (fun l hl => ?_) (hstore ▸ hnil) (fun id l hid => ?_)
    · have hmem := hassumed (-l) (Clause.mem_opposites.1 hl)
      rw [Literal.neg_neg] at hmem
      exact hgk.mem (hfg.mem hmem)
    · have hid : (id, [l]) ∈ f.store.liveClauses := by
        rw [hef.store, ← hek.store]
        exact hid
      exact hgk.mem (hunits rfl id (hfr.mem_units.2 ⟨l, hid⟩) l hid)

/-- A conflict comes with a falsified clause or a true literal of `c`, and otherwise the trail is an
    assignment at rest. -/
theorem Idle.refute {e : Engine} {c : Clause} {Q : Trail → Prop} (h : e.Idle)
    (hc : ∀ l ∈ c, l.isValid = true ∧ l.var ≤ e.maxVar) (hA : KeptByAssuming c Q)
    (hF : KeptByForcing e.store.liveClauses Q) (h0 : Q (.empty e.maxVar)) :
    ∃ f p, e.refute c = .ok (f, p) ∧ Onward e f ∧ f.Running ∧ Q f.trail ∧
      (p = .conflict → f.Falsified ∨ ∃ l ∈ c, l ∈ f.trail.literals) ∧
      (p = .quiet → Rests e.store.clauses c.opposites f.trail.literals) := by
  have he : Q e.trail := h.trail.symm ▸ h0
  by_cases hnil : [] ∈ e.store.clauses
  · obtain ⟨id, hid⟩ := Store.mem_clauses.1 hnil
    exact ⟨e, .conflict, h.refute_of_nil hnil c, .refl e, h.running, he,
      fun _ => .inl ⟨id, [], hid, by simp⟩, by simp⟩
  obtain ⟨f, p, hf, hef, _, hfr, hQf, _, htrue⟩ := h.running.assume hc hA he
  cases p with
  | conflict =>
    exact ⟨f, .conflict, h.refute_of_conflict hnil hf, hef, hfr, hQf, fun _ => .inr (htrue rfl), by simp⟩
  | quiet =>
    obtain ⟨k, p, hk, hek, hkr, hQk, hconflict, hquiet⟩ := h.refute_of_quiet hc hnil hf hF hQf
    exact ⟨k, p, hk, hek, hkr, hQk, fun hp => .inl (hconflict hp), hquiet⟩

/-- Assumptions stay within the closure of the negated clause. -/
theorem keptByAssuming_forced (cs : List Clause) (c : Clause) :
    KeptByAssuming c (fun t => ∀ k ∈ t.literals, Forced cs c.opposites k) := by
  intro t u l hl hpush ht k hk
  rw [Trail.literals_push hpush, List.mem_append, List.mem_singleton] at hk
  rcases hk with hk | rfl
  · exact ht k hk
  · exact .given (by simpa using hl)

/-- A refutation decides whether the negated clause clashes, and its trail is the closure if not. -/
theorem Idle.refute_closure {e : Engine} {c : Clause} (h : e.Idle)
    (hc : ∀ l ∈ c, l.isValid = true ∧ l.var ≤ e.maxVar) :
    ∃ f p, e.refute c = .ok (f, p) ∧ Onward e f ∧ f.Running ∧
      (p = .conflict → Clash e.store.clauses c.opposites) ∧
      (p = .quiet → Rests e.store.clauses c.opposites f.trail.literals ∧
        ∀ l ∈ f.trail.literals, Forced e.store.clauses c.opposites l) := by
  obtain ⟨f, p, hf, hon, hfr, hforced, hconflict, hquiet⟩ := h.refute hc
    (keptByAssuming_forced e.store.clauses c)
    (keptByForcing_forced e.store.liveClauses c.opposites) (by simp [Trail.empty, Trail.literals])
  refine ⟨f, p, hf, hon, hfr, ?_, fun hp => ⟨hquiet hp, hforced⟩⟩
  intro hp
  rcases hconflict hp with ⟨id, d, hd, hfalse⟩ | ⟨l, hl, hmem⟩
  · exact .of_falsified (Store.mem_clauses.2 ⟨id, hon.store ▸ hd⟩) fun k hk => hforced _ (hfalse k hk)
  · exact .inr ⟨l, hforced l hmem, .given (by simpa using hl)⟩

theorem negateAll_faithful {n : Nat} {t : Trail} {c : Clause} (h : t.Faithful n)
    (hc : ∀ l ∈ c, l.isValid = true ∧ l.var ≤ n) (hcons : Consistent (t.literals ++ c.opposites)) :
    ∃ u, negateAll t c = .ok u ∧ u.Faithful n ∧ u.literals = (t.literals ++ c.opposites).eraseDups := by
  induction c generalizing t with
  | nil =>
    refine ⟨t, rfl, h, ?_⟩
    rw [Clause.opposites, List.map_nil, List.append_nil, Clause.eraseDups_of_nodup h.nodup]
  | cons l c ih =>
    obtain ⟨hv, hl⟩ := hc l List.mem_cons_self
    have hc := fun m hm => hc m (List.mem_cons_of_mem _ hm)
    have hopp : Clause.opposites (l :: c) = -l :: Clause.opposites c := rfl
    have hvalue := h.value (l := -l) hl
    rw [hopp] at hcons ⊢
    by_cases hmem : -l ∈ t.literals
    · obtain ⟨u, hu, hfu, hlits⟩ := ih h hc (hcons.mono (by simp; tauto))
      refine ⟨u, ?_, hfu, ?_⟩
      · rw [negateAll, hvalue, decide_eq_true hmem]
        exact hu
      · rw [hlits, Clause.eraseDups_append_cons hmem]
    · have hopen : Open t.literals (-l) :=
        ⟨hmem, fun hn => hcons (-l) (by simp) (List.mem_append_left _ hn)⟩
      obtain ⟨s, hs, hfs, _, hpush⟩ := h.push (l := -l) .assumed hv hl hopen
      obtain ⟨u, hu, hfu, hlits⟩ := ih hfs hc (by rwa [hpush, List.append_assoc])
      refine ⟨u, ?_, hfu, ?_⟩
      · simp [negateAll, hvalue, hmem, hs, hu, bind, Except.bind]
      · rw [hlits, hpush, List.append_assoc, List.singleton_append]

/-- The chain is read off a second propagation, which agrees with the first on its length. -/
theorem Running.chain {e : Engine} {c : Clause} {U : List Literal} (h : e.Running)
    (hc : ∀ l ∈ c, l.isValid = true ∧ l.var ≤ e.maxVar)
    (hU : Plain.rest? e.store.clauses c = some U) (hsize : U.length = e.trail.size) :
    e.chain c = e.store.scanned U := by
  obtain ⟨hcons, hp⟩ := Plain.rest?_eq_some_iff.1 hU
  have hnil : (Trail.empty e.maxVar).literals = [] := rfl
  obtain ⟨t, ht, hft, hlits⟩ := negateAll_faithful (Trail.faithful_empty e.maxVar) hc
    (by rwa [hnil, List.nil_append])
  rw [hnil, List.nil_append] at hlits
  obtain ⟨u, hu, _, rfl⟩ := hft.saturate
    (fun x hx l hl => h.literals x.2 (Store.mem_clauses.2 ⟨x.1, hx⟩) l hl) (hlits.symm ▸ hp)
  have hlen : u.size = e.trail.size := by rw [← hsize, Trail.literals_length]
  rw [Engine.chain, ht, h.indexed.scan_eq]
  refine Store.scanned_bind fun _ => ?_
  simp [hu, hlen, require, bind, Except.bind, pure, Except.pure]

/-- A check can always be called off, whatever it has assigned, and the engine is idle again. -/
theorem Running.backtrack {e : Engine} (h : e.Running) :
    ∃ f, e.backtrack = .ok f ∧ f.Idle ∧ f.store = e.store ∧ f.maxVar = e.maxVar := by
  refine ⟨{ e with trail := .empty e.maxVar, processed := 0 }, ?_, ⟨{ h.toArranged with }, rfl, rfl⟩,
    rfl, rfl⟩
  simp [Engine.backtrack, Trail.clear, h.faithful.shrinkTo_zero, bind, Except.bind, pure, Except.pure]

/-- From an idle engine on, undoing what a check has assigned is to undo everything. -/
theorem Idle.restore_eq {e : Engine} (h : e.Idle) (f : Engine) : e.restore f = f.backtrack := by
  have hsize : e.trail.size = 0 := by rw [h.trail]; rfl
  simp [Engine.restore, Engine.backtrack, Trail.clear, hsize]

/-- The judgment on a clause, given where the plain propagation of its negation comes to rest. -/
def impliedJudgment (reported : Clause) (evidence : Bool) :
    Option (List Literal) → Judgment RupFailure
  | none => .holds
  | some U => .fails (if evidence then some ⟨reported, U⟩ else none)

/-- Evidence takes a scan of the clauses. -/
def impliedAnswer (s : Store) (reported : Clause) (evidence : Bool) :
    Option (List Literal) → Checked (Judgment RupFailure)
  | none => .ok .holds
  | some U => if evidence then s.scanned (.fails (some ⟨reported, U⟩)) else .ok (.fails none)

theorem impliedAnswer_false (s : Store) (reported : Clause) (rest : Option (List Literal)) :
    impliedAnswer s reported false rest = .ok (impliedJudgment reported false rest) := by
  cases rest <;> rfl

theorem impliedAnswer_of_le {s : Store} (hs : s.size ≤ maxIdentifier) (reported : Clause)
    (evidence : Bool) (rest : Option (List Literal)) :
    impliedAnswer s reported evidence rest = .ok (impliedJudgment reported evidence rest) := by
  cases rest with
  | none => rfl
  | some U =>
    cases evidence with
    | false => rfl
    | true => exact Store.scanned_of_le hs

theorem impliedAnswer_cases (s : Store) (reported : Clause) (evidence : Bool)
    (rest : Option (List Literal)) :
    impliedAnswer s reported evidence rest = .ok (impliedJudgment reported evidence rest) ∨
    (impliedAnswer s reported evidence rest = .error .identifierRange ∧ maxIdentifier < s.size) := by
  by_cases hs : s.size ≤ maxIdentifier
  · exact .inl (impliedAnswer_of_le hs reported evidence rest)
  cases rest with
  | none => exact .inl rfl
  | some U =>
    cases evidence with
    | false => exact .inl rfl
    | true => exact .inr ⟨Store.scanned_of_lt (Nat.lt_of_not_le hs), Nat.lt_of_not_le hs⟩

/-- Without a conflict the propagation with watches and the plain one end in the closure, each in an
    order of its own. -/
theorem Idle.chain_of_refute {e f : Engine} {c : Clause} (h : e.Idle)
    (hc : ∀ l ∈ c, l.isValid = true ∧ l.var ≤ e.maxVar) (hf : e.refute c = .ok (f, .quiet)) :
    ∃ U, Plain.rest? e.store.clauses c = some U ∧ U.Perm f.trail.literals ∧
      f.chain c = e.store.scanned U := by
  obtain ⟨g, p, hg, hon, hrunning, _, hquiet⟩ := h.refute_closure hc
  cases hg.symm.trans hf
  obtain ⟨hrest, hforced⟩ := hquiet rfl
  cases hU : Plain.rest? e.store.clauses c with
  | none => exact absurd ((Plain.rest?_eq_none_iff h.indexed.nodup_clauses).1 hU) hrest.not_clash
  | some U =>
    obtain ⟨hbetween, hrestU⟩ := Plain.rests_of_rest? h.indexed.nodup_clauses hU
    have hperm : U.Perm f.trail.literals := by
      refine (List.perm_ext_iff_of_nodup hbetween.nodup hrunning.faithful.nodup).2 fun l => ⟨?_, ?_⟩
      · exact fun hl => hrest.mem_of_forced (hbetween.forced l hl)
      · exact fun hl => hrestU.mem_of_forced (hforced l hl)
    refine ⟨U, rfl, hperm, ?_⟩
    rw [← hon.store]
    refine hrunning.chain (hon.maxVar.symm ▸ hc) (hon.store.symm ▸ hU) ?_
    rw [hperm.length_eq, Trail.literals_length]

/-- What a check reports has no effect on the engine that it leaves behind. -/
theorem Idle.checkImplied {e : Engine} {c : Clause} (h : e.Idle)
    (hc : ∀ l ∈ c, l.isValid = true ∧ l.var ≤ e.maxVar) :
    ∃ f, (∀ reported evidence, e.checkImplied c reported evidence =
        (impliedAnswer e.store reported evidence (Plain.rest? e.store.clauses c)).map (f, ·)) ∧
      f.Idle ∧ f.store = e.store ∧ f.maxVar = e.maxVar := by
  obtain ⟨f, p, hf, hon, hfr, hconflict, _⟩ := h.refute_closure hc
  obtain ⟨g, hback, hg, hstore, hmax⟩ := hfr.backtrack
  rw [← h.restore_eq f] at hback
  refine ⟨g, fun reported evidence => ?_, hg, hstore.trans hon.store, hmax.trans hon.maxVar⟩
  cases p with
  | conflict =>
    rw [(Plain.rest?_eq_none_iff h.indexed.nodup_clauses).2 (hconflict rfl)]
    simp [Engine.checkImplied, hf, hback, impliedAnswer, bind, Except.bind, pure, Except.pure,
      Except.map]
  | quiet =>
    obtain ⟨U, hU, _, hchain⟩ := h.chain_of_refute hc hf
    cases evidence with
    | false =>
      simp [Engine.checkImplied, hf, hU, hback, impliedAnswer, bind, Except.bind, pure, Except.pure,
        Except.map]
    | true =>
      have hanswer : impliedAnswer e.store reported true (some U) =
          e.store.scanned (.fails (some ⟨reported, U⟩)) := rfl
      rw [hU, hanswer, Store.scanned_map, Engine.checkImplied, hf]
      change f.chain c >>= _ = _
      rw [hchain]
      refine Store.scanned_bind fun _ => ?_
      rw [hback]
      rfl

/-- The judgment on the resolvents of `c`, given the first one that the plain checker objects to. -/
def resolvedJudgment (c : Clause) (evidence : Bool) :
    Option (Clause × List Literal) → Judgment RatFailure
  | none => .holds
  | some (d, U) => .fails (if evidence then some ⟨c, d, ⟨c, U⟩⟩ else none)

theorem resolve_literals {cs : List Clause} {c d : Clause} {n : Nat} (p : Literal)
    (hcs : ∀ c ∈ cs, ∀ l ∈ c, l.isValid = true ∧ l.var ≤ n)
    (hc : ∀ l ∈ c, l.isValid = true ∧ l.var ≤ n) (hd : d ∈ cs) :
    ∀ l ∈ Clause.resolve c p d, l.isValid = true ∧ l.var ≤ n := by
  intro l hl
  rcases Clause.mem_resolve.1 hl with ⟨hlc, _⟩ | ⟨hld, _⟩
  · exact hc l hlc
  · exact hcs d hd l hld

theorem Idle.checkResolvents {e : Engine} {c : Clause} {xs : List (Nat × Clause)} (h : e.Idle)
    (hs : e.store.size ≤ maxIdentifier) (hc : ∀ l ∈ c, l.isValid = true ∧ l.var ≤ e.maxVar)
    (p : Literal) (hxs : ∀ x ∈ xs, x.2 ∈ e.store.clauses) :
    ∃ f, (∀ evidence, e.checkResolvents c p evidence xs =
        .ok (f, resolvedJudgment c evidence
          ((xs.map Prod.snd).findSome? (Plain.unresolvedWith? e.store.clauses c p)))) ∧
      f.Idle ∧ f.store = e.store ∧ f.maxVar = e.maxVar := by
  induction xs generalizing e with
  | nil => exact ⟨e, fun _ => rfl, h, rfl, rfl⟩
  | cons x xs ih =>
    obtain ⟨id, d⟩ := x
    have hd : d ∈ e.store.clauses := hxs (id, d) List.mem_cons_self
    have hxs := fun y hy => hxs y (List.mem_cons_of_mem (id, d) hy)
    rw [List.map_cons, List.findSome?_cons, Plain.unresolvedWith?]
    by_cases htaut : (Clause.resolve c p d).isTautology = true
    · obtain ⟨f, hf, hfi, hstore, hmax⟩ := ih h hs hc hxs
      refine ⟨f, fun evidence => ?_, hfi, hstore, hmax⟩
      rw [Engine.checkResolvents, if_pos htaut, if_pos htaut]
      exact hf evidence
    rw [if_neg htaut]
    obtain ⟨f, hf, hfi, hstore, hmax⟩ :=
      h.checkImplied (resolve_literals p h.literals hc hd)
    simp only [impliedAnswer_of_le hs] at hf
    cases hU : Plain.rest? e.store.clauses (Clause.resolve c p d) with
    | none =>
      obtain ⟨g, hg, hgi, hgstore, hgmax⟩ := ih hfi (hstore.symm ▸ hs) (hmax.symm ▸ hc)
        (hstore.symm ▸ hxs)
      refine ⟨g, fun evidence => ?_, hgi, hgstore.trans hstore, hgmax.trans hmax⟩
      rw [hstore] at hg
      simp [Engine.checkResolvents, htaut, hf, hU, impliedJudgment, hg, bind, Except.bind, Except.map]
    | some U =>
      refine ⟨f, fun evidence => ?_, hfi, hstore, hmax⟩
      cases evidence <;>
        simp [Engine.checkResolvents, htaut, hf, hU, impliedJudgment, resolvedJudgment, bind,
          Except.bind, pure, Except.pure, Except.map]

theorem Idle.candidates {e : Engine} (h : e.Idle) (p : Literal) :
    e.candidates p = e.store.scanned (e.store.liveClauses.filter fun x => x.2.contains (-p)) := by
  rw [Engine.candidates, h.indexed.scan_eq]
  exact Store.scanned_bind fun _ => rfl

theorem Idle.checkResolved {e : Engine} {p : Literal} {c : Clause} (h : e.Idle)
    (hc : ∀ l ∈ p :: c, l.isValid = true ∧ l.var ≤ e.maxVar) :
    ∃ f, (∀ evidence, e.checkResolved (p :: c) evidence = e.store.scanned
        (f, resolvedJudgment (p :: c) evidence (Plain.unresolved? e.store.clauses (p :: c) p))) ∧
      f.Idle ∧ f.store = e.store ∧ f.maxVar = e.maxVar := by
  by_cases hs : e.store.size ≤ maxIdentifier
  · let xs := e.store.liveClauses.filter fun x => x.2.contains (-p)
    have hxs : ∀ x ∈ xs, x.2 ∈ e.store.clauses :=
      fun x hx => Store.mem_clauses.2 ⟨x.1, List.mem_of_mem_filter hx⟩
    have hmap : xs.map Prod.snd = e.store.clauses.filter (·.contains (-p)) := by
      rw [Store.clauses, List.filter_map]
      rfl
    obtain ⟨f, hf, hrest⟩ := h.checkResolvents hs hc p hxs
    refine ⟨f, fun evidence => ?_, hrest⟩
    rw [hmap] at hf
    rw [Engine.checkResolved, h.candidates, Store.scanned_of_le hs, Store.scanned_of_le hs]
    exact hf evidence
  · have hlt := Nat.lt_of_not_le hs
    refine ⟨e, fun evidence => ?_, h, rfl, rfl⟩
    rw [Engine.checkResolved, h.candidates, Store.scanned_of_lt hlt, Store.scanned_of_lt hlt]
    rfl

end ClausalProof.Engine
