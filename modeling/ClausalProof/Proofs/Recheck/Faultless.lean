import ClausalProof.Proofs.Recheck

set_option autoImplicit false

/-!
The re-check of a verdict from elsewhere never faults, unless the clauses of the formula and the proof
use up the identifiers. Its tables have places for the variables of the formula and the proof only, so
each look into them rests on what has been demanded before: the step is one of the proof, the clause
is that of the step, the pivot clause is found in the store, and the variables of a chain are known
and not assigned yet.
-/
namespace ClausalProof.Recheck

/-- The check passes or objects. Its only fault is a lack of identifiers, and then `full` holds. -/
def Faultless {α : Type} (full : Prop) (x : Audit α) : Prop :=
  ∀ fault, x = .error (.fault fault) → fault = .identifierRange ∧ full

section

variable {α β : Type} {full : Prop}

theorem Faultless.cases {x : Audit α} (h : Faultless full x) :
    (∃ a, x = .ok a) ∨ (∃ o, x = .error (.objection o)) ∨
      (x = .error (.fault .identifierRange) ∧ full) := by
  cases x with
  | ok a => exact .inl ⟨a, rfl⟩
  | error refusal =>
    cases refusal with
    | fault fault =>
      obtain ⟨rfl, hfull⟩ := h fault rfl
      exact .inr (.inr ⟨rfl, hfull⟩)
    | objection o => exact .inr (.inl ⟨o, rfl⟩)

theorem Faultless.mono {full' : Prop} {x : Audit α} (h : Faultless full x) (hfull : full → full') :
    Faultless full' x :=
  fun fault hfault => (h fault hfault).imp_right hfull

theorem faultless_ok (a : α) : Faultless full (.ok a) := by simp [Faultless]

theorem faultless_object (o : Objection) : Faultless full (object o : Audit α) := by
  simp [Faultless, object]

theorem faultless_overflow (hfull : full) :
    Faultless full (.error (.fault .identifierRange) : Audit α) := by
  simp [Faultless, hfull]

theorem Faultless.bind {x : Audit α} {g : α → Audit β} (hx : Faultless full x)
    (hg : ∀ a, x = .ok a → Faultless full (g a)) : Faultless full (x >>= g) := by
  rcases hx.cases with ⟨a, rfl⟩ | ⟨o, rfl⟩ | ⟨rfl, hfull⟩
  · exact hg a rfl
  · exact faultless_object o
  · exact faultless_overflow hfull

theorem faultless_demand (condition : Bool) (o : Objection) : Faultless full (demand condition o) := by
  cases condition with
  | true => exact faultless_ok ()
  | false => exact faultless_object o

/-- What is demanded may be used behind the demand. -/
theorem faultless_of_demand {condition : Bool} {o : Objection} {y : Audit β}
    (h : condition = true → Faultless full y) : Faultless full (demand condition o >>= fun _ => y) :=
  (faultless_demand condition o).bind fun _ hok => h (demand_eq_ok.1 hok)

theorem faultless_of_lift {x : Checked α} {a : α} {g : α → Audit β} (hx : x = .ok a)
    (hg : Faultless full (g a)) : Faultless full (lift x >>= g) := by
  rw [hx]
  exact hg

end

section

variable {n : Nat} {t : Trail} {full : Prop}

theorem faultless_assignChain {chain : List Literal} (ht : t.Faithful n)
    (hchain : ∀ l ∈ chain, l.isValid = true) : Faultless full (assignChain n t chain) := by
  induction chain generalizing t with
  | nil => exact faultless_ok t
  | cons l chain ih =>
    obtain ⟨hv, hrest⟩ := List.forall_mem_cons.1 hchain
    rw [assignChain]
    apply faultless_of_demand
    intro hl
    have hl : l.var ≤ n := of_decide_eq_true hl
    apply faultless_of_lift (ht.value (l := -l) hl)
    by_cases hneg : -l ∈ t.literals
    · simp only [hneg, decide_true, if_true]
      exact faultless_object _
    · simp only [hneg, decide_false, Bool.false_eq_true, if_false]
      apply faultless_of_lift (ht.value hl)
      by_cases hpos : l ∈ t.literals
      · simp only [hpos, decide_true, if_true]
        exact ih ht hrest
      · simp only [hpos, decide_false, Bool.false_eq_true, if_false]
        obtain ⟨u, hu, hfaithful, _⟩ := ht.push .assumed hv hl ⟨hpos, hneg⟩
        apply faultless_of_lift hu
        exact ih hfaithful hrest

theorem faultless_falsifies {c : Clause} (ht : t.Faithful n) (hc : ∀ l ∈ c, l.var ≤ n) :
    Faultless full (falsifies t c) := by
  induction c with
  | nil => exact faultless_ok ()
  | cons l c ih =>
    obtain ⟨hl, hc⟩ := List.forall_mem_cons.1 hc
    rw [falsifies]
    apply faultless_of_lift (ht.value (l := -l) hl)
    apply faultless_of_demand
    exact fun _ => ih hc

theorem faultless_stable {xs : List (Nat × Clause)} (ht : t.Faithful n)
    (hxs : ∀ x ∈ xs, x.2.Nodup ∧ ∀ l ∈ x.2, l.var ≤ n) : Faultless full (stable t xs) := by
  induction xs with
  | nil => exact faultless_ok ()
  | cons x xs ih =>
    obtain ⟨⟨hnodup, hd⟩, hrest⟩ := List.forall_mem_cons.1 hxs
    obtain ⟨b, hb, _⟩ := ht.isStable hd hnodup
    rw [stable]
    apply faultless_of_lift hb
    apply faultless_of_demand
    exact fun _ => ih hrest

end

section

variable {s : Store} {n : Nat} {c : Clause}

theorem faultless_chain {U : List Literal} (hs : s.Within n) (hc : ∀ l ∈ c, l.var ≤ n)
    (hU : ∀ l ∈ U, l.isValid = true) : Faultless (maxIdentifier < s.size) (chain s n c U) := by
  apply (faultless_assignChain (Trail.faithful_empty n) hU).bind
  intro t ht
  rcases assignChain_cases (Trail.faithful_empty n) U with ⟨u, hu, hfaithful, _⟩ | ⟨hu, _⟩
  · obtain rfl := Except.ok.inj (hu.symm.trans ht)
    apply (faultless_falsifies hfaithful hc).bind
    intro _ _
    rw [hs.indexed.scan_eq]
    by_cases hsize : s.size ≤ maxIdentifier
    swap
    · rw [Store.scanned_of_lt (Nat.lt_of_not_le hsize)]
      exact faultless_overflow (Nat.lt_of_not_le hsize)
    apply faultless_of_lift (Store.scanned_of_le hsize)
    apply faultless_stable hfaithful
    intro x hx
    exact ⟨hs.indexed.nodup x hx,
      fun l hl => (hs.literals x.2 (Store.mem_clauses.2 ⟨x.1, hx⟩) l hl).2⟩
  · exact absurd ht (hu t)

theorem faultless_resolution {p : Literal} {rat : RatFailure} (hs : s.Within n)
    (hc : ∀ l ∈ c, l.var ≤ n) (hrat : ∀ l ∈ rat.rup.chain, l.isValid = true) :
    Faultless (maxIdentifier < s.size) (resolution s n c p rat) := by
  rw [resolution]
  apply faultless_of_demand
  intro _
  apply faultless_of_demand
  intro hfound
  apply faultless_of_demand
  intro _
  apply faultless_of_demand
  intro _
  apply faultless_chain hs ?_ hrat
  -- the literals of the pivot clause are those of a clause of the store
  obtain ⟨d, hd, hkey⟩ := (hs.indexed.find? rat.pivotClause).1 hfound
  intro l hl
  rcases Clause.mem_resolve.1 hl with ⟨hl, _⟩ | ⟨hl, _⟩
  · exact hc l hl
  · exact (hs.literals d hd l ((Clause.key_eq_key.1 hkey l).2 hl)).2

end

/-- The chains that a verdict shows. -/
def chains (v : Verdict) : List (List Literal) :=
  v.rup.toList.map (·.chain) ++ v.rat.toList.map (·.rup.chain)

theorem faultless_rejection {s : Store} {n : Nat} {c : Clause} {v : Verdict} (hs : s.Within n)
    (hc : ∀ l ∈ c, l.var ≤ n) (hv : ∀ U ∈ chains v, ∀ l ∈ U, l.isValid = true) :
    Faultless (maxIdentifier < s.size) (rejection s n c v) := by
  unfold rejection
  cases hrup : v.rup with
  | none => exact faultless_object _
  | some rup =>
    have hchain := faultless_chain hs hc (hv rup.chain (by simp [chains, hrup]))
    apply faultless_of_demand
    intro _
    apply hchain.bind
    intro _ _
    cases hrat : v.rat with
    | none => cases c <;> simp [faultless_ok, faultless_object]
    | some rat =>
      cases c with
      | nil => exact faultless_object _
      | cons p c => exact faultless_resolution hs hc (hv rat.rup.chain (by simp [chains, hrat]))

theorem faultless_accepted {full : Prop} (p : Proof) (v : Verdict) : Faultless full (accepted p v) := by
  rw [accepted]
  cases v.accepted with
  | none => exact faultless_ok ()
  | some listed => exact faultless_demand _ _

section

variable {f : Formula} {p : Proof} {v : Verdict}

theorem faultless_step_add {q r : Proof} {c : Clause} (hf : f.Valid)
    (hp : Proof.Valid (q ++ .add c :: r)) (hv : ∀ U ∈ chains v, ∀ l ∈ U, l.isValid = true) :
    Faultless (maxIdentifier < f.length + (Proof.additions q).length)
      (step f (q ++ .add c :: r) v (q.length + 1)) := by
  have hmem : Step.add c ∈ q ++ Step.add c :: r := by simp
  rw [step_add]
  -- the listed clauses are compared before any clause is stored
  apply (faultless_accepted q v).bind
  intro _ _
  rcases Store.replay_cases (fun c hc l hl => Literal.isZero_of_isValid (hf c hc l hl))
    (fun r hr l hl => Literal.isZero_of_isValid (hp r (List.mem_append_left _ hr) l hl))
    with ⟨s, hs⟩ | ⟨hfull, hsize⟩
  · apply faultless_of_lift hs
    have hwithin := within_of_replay hf hp (List.prefix_append _ _) hs
    have hc : ∀ l ∈ c, l.var ≤ Session.maxVar f (q ++ .add c :: r) :=
      fun l hl => Nat.le_trans (Proof.var_le_maxVar hmem hl) (Nat.le_max_right _ _)
    exact (faultless_rejection hwithin hc hv).mono fun hlt => Store.size_replay hs ▸ hlt
  · rw [hfull]
    exact faultless_overflow (by omega)

/-- The only fault is that the clauses before the step have used up the identifiers. -/
theorem faultless_recheck (hf : f.Valid) (hp : p.Valid)
    (hv : ∀ U ∈ chains v, ∀ l ∈ U, l.isValid = true) :
    Faultless (∃ q c r, p = q ++ .add c :: r ∧ v.step = some (q.length + 1) ∧
      maxIdentifier < f.length + (Proof.additions q).length) (recheck f p v) := by
  unfold recheck
  split
  · exact faultless_object _
  cases v.step with
  | some k =>
    change Faultless _ (step f p v k)
    rcases step_cases f p v k with ⟨o, ho⟩ | ⟨q, c, r, rfl, rfl⟩
    · rw [ho]
      exact faultless_object o
    · exact (faultless_step_add hf hp hv).mono fun hlt => ⟨q, c, r, rfl, rfl, hlt⟩
  | none =>
    rw [noEmptyClause]
    cases p.findIdx? (· == Step.add []) with
    | some i => exact faultless_object _
    | none => exact faultless_accepted p v

theorem recheck_cases (hf : f.Valid) (hp : p.Valid)
    (hv : ∀ U ∈ chains v, ∀ l ∈ U, l.isValid = true)
    (hsize : f.length + (Proof.additions p).length ≤ maxIdentifier + 1) :
    recheck f p v = .ok () ∨ ∃ o, recheck f p v = .error (.objection o) := by
  rcases (faultless_recheck hf hp hv).cases with ⟨_, hok⟩ | hobject | ⟨_, q, c, r, rfl, _, hlt⟩
  · exact .inl hok
  · exact .inr hobject
  · rw [Proof.additions_append, Proof.additions_cons] at hsize
    simp only [Step.added?, Option.toList_some, List.length_append, List.length_singleton] at hsize
    omega

end

end ClausalProof.Recheck

namespace ClausalProof

/-- A verdict from elsewhere, whatever it lists, is passed or objected to; only a formula and a proof
    with more clauses than there are identifiers are beyond the re-check. -/
theorem recheck_returns {f : Formula} {p : Proof} {v : Verdict} (hf : f.Valid) (hp : p.Valid)
    (hv : ∀ U ∈ Recheck.chains v, ∀ l ∈ U, l.isValid = true) :
    recheck f p v = .ok () ∨ (∃ o, recheck f p v = .error (.objection o)) ∨
    (recheck f p v = .error (.fault .identifierRange) ∧ ∃ k, v.step = some k ∧
      maxIdentifier < f.length + (Proof.additions (p.take (k - 1))).length) := by
  rcases (Recheck.faultless_recheck hf hp hv).cases with
    ⟨_, hok⟩ | hobject | ⟨hfault, q, c, r, rfl, hstep, hlt⟩
  · exact .inl hok
  · exact .inr (.inl hobject)
  · refine .inr (.inr ⟨hfault, q.length + 1, hstep, ?_⟩)
    rwa [Nat.add_sub_cancel, List.take_left]

/-- Evidence against the clause `-1`, whose second chain is about a variable from nowhere. -/
def strayVerdict : Verdict :=
  ⟨.invalid, some 1, some [], some ⟨[⟨1, true⟩], [⟨1, false⟩]⟩,
    some ⟨[⟨1, true⟩], [⟨2, false⟩, ⟨1, false⟩],
      ⟨[⟨1, true⟩], [⟨2, true⟩, ⟨maxVariable, false⟩]⟩⟩⟩

theorem recheck_returns_stray :
    ∃ o, recheck (Check.formulaOf [[1, 2]]) (Check.proofOf [.add [-1]]) strayVerdict =
      .error (.objection o) := by
  rcases recheck_returns (v := strayVerdict) (Check.valid_formulaOf (f := [[1, 2]]) (by decide))
    (Check.valid_proofOf (p := [.add [-1]]) (by decide)) (by decide) with hok | hobject | ⟨hfault, _⟩
  · exact absurd hok (by decide +kernel)
  · exact hobject
  · exact absurd hfault (by decide +kernel)

end ClausalProof
