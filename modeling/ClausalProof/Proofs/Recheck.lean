import ClausalProof.Recheck
import ClausalProof.Proofs.Refinement

set_option autoImplicit false

/-!
The re-check of a verdict against the checks themselves. A chain passes exactly if it is an
assignment at rest that falsifies the clause, so it bounds whatever propagation can reach, in any
order and with any watches. Every rejection with evidence therefore passes, and nothing passes for
a proof that is accepted.
-/
namespace ClausalProof

/-- The clauses of a store are over the literals of variables up to `n`. -/
structure Store.Within (s : Store) (n : Nat) : Prop where
  indexed : s.Indexed
  literals : ∀ d ∈ s.clauses, ∀ l ∈ d, l.isValid = true ∧ l.var ≤ n

namespace Recheck

theorem bind_eq_ok {α β : Type} {x : Audit α} {f : α → Audit β} {b : β} :
    (x >>= f) = .ok b ↔ ∃ a, x = .ok a ∧ f a = .ok b := by
  cases x <;> simp [bind, Except.bind]

theorem then_eq_ok {x y : Audit Unit} :
    (x >>= fun _ => y) = .ok () ↔ x = .ok () ∧ y = .ok () := by
  cases x <;> simp [bind, Except.bind]

@[simp] theorem demand_eq_ok {condition : Bool} {o : Objection} {u : Unit} :
    demand condition o = .ok u ↔ condition = true := by
  cases condition <;> simp [demand, object]

@[simp] theorem lift_eq_ok {α : Type} {x : Checked α} {a : α} : lift x = .ok a ↔ x = .ok a := by
  cases x <;> simp [lift, Except.mapError]

@[simp] theorem object_ne_ok {α : Type} {o : Objection} {a : α} : object o ≠ .ok a := by
  simp [object]

section

variable {n : Nat} {t : Trail}

theorem push_isValid {u : Trail} {l : Literal} {reason : Reason} (h : t.push l reason = .ok u) :
    l.isValid = true := (Trail.push_eq_ok.1 h).1

/-- A chain is assigned exactly if its literals exist and it contradicts neither itself nor what is
    assigned already. -/
theorem assignChain_cases (ht : t.Faithful n) (chain : List Literal) :
    (∃ u, assignChain n t chain = .ok u ∧ u.Faithful n ∧
      (∀ l, l ∈ u.literals ↔ l ∈ t.literals ∨ l ∈ chain) ∧
      ∀ l ∈ chain, l.isValid = true ∧ l.var ≤ n) ∨
    ((∀ u, assignChain n t chain ≠ .ok u) ∧
      ¬ ((∀ l ∈ chain, l.isValid = true ∧ l.var ≤ n) ∧ Consistent (t.literals ++ chain))) := by
  induction chain generalizing t with
  | nil => exact .inl ⟨t, rfl, ht, by simp, by simp⟩
  | cons l chain ih =>
    by_cases hl : l.var ≤ n
    swap
    · refine .inr ⟨?_, fun h => hl (h.1 l List.mem_cons_self).2⟩
      simp [assignChain, hl, demand, object, bind, Except.bind]
    have hvalue := ht.value hl
    have hvalue' := ht.value (l := -l) hl
    by_cases hneg : -l ∈ t.literals
    · refine .inr ⟨?_, fun h => h.2 l (by simp) (List.mem_append_left _ hneg)⟩
      simp [assignChain, hl, demand, hvalue', hneg, lift, Except.mapError, object, bind, Except.bind]
    by_cases hpos : l ∈ t.literals
    · have hstep : assignChain n t (l :: chain) = assignChain n t chain := by
        simp [assignChain, hl, demand, hvalue, hvalue', hneg, hpos, lift, Except.mapError, bind,
          Except.bind]
      rw [hstep]
      rcases ih ht with ⟨u, hu, hfaithful, hmem, hvalid⟩ | ⟨hu, hbad⟩
      · refine .inl ⟨u, hu, hfaithful, ?_, List.forall_mem_cons.2 ⟨⟨ht.valid l hpos, hl⟩, hvalid⟩⟩
        intro m
        rw [hmem, List.mem_cons]
        exact ⟨fun hm => hm.imp_right .inr,
          fun hm => hm.elim .inl (Or.rec (fun he => .inl (he ▸ hpos)) .inr)⟩
      · refine .inr ⟨hu, fun h => hbad ⟨(List.forall_mem_cons.1 h.1).2, h.2.mono ?_⟩⟩
        simp only [List.mem_append, List.mem_cons]
        exact fun m hm => hm.imp_right .inr
    have hstep : assignChain n t (l :: chain) =
        lift (t.push l .assumed) >>= fun u => assignChain n u chain := by
      simp [assignChain, hl, demand, hvalue, hvalue', hneg, hpos, lift, Except.mapError, bind,
        Except.bind]
    rw [hstep]
    by_cases hv : l.isValid = true
    swap
    · refine .inr ⟨fun u hu => ?_, fun h => hv (h.1 l List.mem_cons_self).1⟩
      obtain ⟨w, hw, _⟩ := bind_eq_ok.1 hu
      exact hv (push_isValid (lift_eq_ok.1 hw))
    obtain ⟨w, hw, hfw, _, hlits⟩ := ht.push .assumed hv hl ⟨hpos, hneg⟩
    have hlift : lift (t.push l .assumed) = .ok w := lift_eq_ok.2 hw
    rw [hlift]
    rcases ih hfw with ⟨u, hu, hfaithful, hmem, hvalid⟩ | ⟨hu, hbad⟩
    · refine .inl ⟨u, hu, hfaithful, ?_, List.forall_mem_cons.2 ⟨⟨hv, hl⟩, hvalid⟩⟩
      intro m
      rw [hmem, hlits, List.mem_append, List.mem_singleton, List.mem_cons, or_assoc]
    · refine .inr ⟨hu, fun h => hbad ⟨(List.forall_mem_cons.1 h.1).2, ?_⟩⟩
      rw [hlits, List.append_assoc]
      exact h.2

theorem falsifies_eq_ok {c : Clause} (ht : t.Faithful n) (hc : ∀ l ∈ c, l.var ≤ n) :
    falsifies t c = .ok () ↔ ∀ l ∈ c, -l ∈ t.literals := by
  induction c with
  | nil => simp [falsifies]
  | cons l c ih =>
    obtain ⟨hl, hc⟩ := List.forall_mem_cons.1 hc
    simp [falsifies, ht.value (l := -l) hl, bind_eq_ok, ih hc]

theorem stable_eq_ok {xs : List (Nat × Clause)} (ht : t.Faithful n)
    (hxs : ∀ x ∈ xs, x.2.Nodup ∧ ∀ l ∈ x.2, l.var ≤ n) :
    stable t xs = .ok () ↔ ∀ x ∈ xs, Stable t.literals x.2 := by
  induction xs with
  | nil => simp [stable]
  | cons x xs ih =>
    obtain ⟨id, d⟩ := x
    obtain ⟨⟨hnodup, hd⟩, hrest⟩ := List.forall_mem_cons.1 hxs
    obtain ⟨b, hb, hbs⟩ := ht.isStable hd hnodup
    simp only at hb hbs
    rw [List.forall_mem_cons, ← ih hrest, ← hbs]
    simp [stable, hb, bind_eq_ok]

end

/-- A chain passes exactly if it is an assignment at rest that falsifies the clause, and the clauses can
    be scanned. -/
theorem chain_eq_ok {s : Store} {n : Nat} {c : Clause} {U : List Literal} (hs : s.Within n)
    (hc : ∀ l ∈ c, l.isValid = true ∧ l.var ≤ n) :
    chain s n c U = .ok () ↔ s.size ≤ maxIdentifier ∧
      (∀ l ∈ U, l.isValid = true ∧ l.var ≤ n) ∧ Rests s.clauses c.opposites U := by
  have hlive : ∀ x ∈ s.liveClauses, x.2.Nodup ∧ ∀ l ∈ x.2, l.var ≤ n := fun x hx =>
    ⟨hs.indexed.nodup x hx, fun l hl => (hs.literals x.2 (Store.mem_clauses.2 ⟨x.1, hx⟩) l hl).2⟩
  rcases assignChain_cases (Trail.faithful_empty n) U with ⟨u, hu, hfaithful, hmem, hvalid⟩ | ⟨hu, hbad⟩
  · have hmem : ∀ l, l ∈ u.literals ↔ l ∈ U := by
      intro l
      rw [hmem]
      simp [Trail.empty, Trail.literals]
    have hchain : chain s n c U = .ok () ↔ s.size ≤ maxIdentifier ∧
        (∀ l ∈ c, -l ∈ u.literals) ∧ ∀ x ∈ s.liveClauses, Stable u.literals x.2 := by
      rw [← falsifies_eq_ok hfaithful fun l hl => (hc l hl).2, ← stable_eq_ok hfaithful hlive]
      rw [chain, hu]
      refine then_eq_ok.trans ?_
      rw [bind_eq_ok]
      simp only [lift_eq_ok, hs.indexed.scan_eq_ok]
      constructor
      · rintro ⟨hfalse, _, ⟨hsize, rfl⟩, hstable⟩
        exact ⟨hsize, hfalse, hstable⟩
      · rintro ⟨hsize, hfalse, hstable⟩
        exact ⟨hfalse, _, ⟨hsize, rfl⟩, hstable⟩
    rw [hchain, and_congr_right_iff]
    intro _
    constructor
    · rintro ⟨hfalse, hstable⟩
      have hrests : Rests s.clauses c.opposites u.literals := by
        refine ⟨fun l hl => ?_, hfaithful.consistent, fun d hd => ?_⟩
        · simpa using hfalse (-l) (Clause.mem_opposites.1 hl)
        · obtain ⟨id, hid⟩ := Store.mem_clauses.1 hd
          exact hstable _ hid
      exact ⟨hvalid, hrests.congr hmem⟩
    · rintro ⟨_, hrests⟩
      have hrests := hrests.congr fun l => (hmem l).symm
      exact ⟨fun l hl => hrests.given (-l) (by simpa using hl),
        fun x hx => hrests.stable x.2 (Store.mem_clauses.2 ⟨x.1, hx⟩)⟩
  · constructor
    · intro h
      obtain ⟨u, hok, _⟩ := bind_eq_ok.1 h
      exact absurd hok (hu u)
    · rintro ⟨_, hvalid, hrests⟩
      exact absurd ⟨hvalid, hrests.consistent⟩ hbad

section

variable {s : Store} {n : Nat} {c : Clause}

theorem chain_of_rest? {U : List Literal} (hs : s.Within n) (hsize : s.size ≤ maxIdentifier)
    (hc : ∀ l ∈ c, l.isValid = true ∧ l.var ≤ n) (h : Plain.rest? s.clauses c = some U) :
    chain s n c U = .ok () := by
  have hnodup := hs.indexed.nodup_clauses
  refine (chain_eq_ok hs hc).2 ⟨hsize, ?_, (Plain.rests_of_rest? hnodup h).2⟩
  exact Plain.forall_mem_rest? hnodup h (fun _ hl => hl) hs.literals hc

theorem not_clash_of_chain {U : List Literal} (hs : s.Within n)
    (hc : ∀ l ∈ c, l.isValid = true ∧ l.var ≤ n) (h : chain s n c U = .ok ()) :
    ¬ Clash s.clauses c.opposites :=
  ((chain_eq_ok hs hc).1 h).2.2.not_clash

theorem resolution_of_unresolved? {p : Literal} {d : Clause} {U : List Literal} (hs : s.Within n)
    (hsize : s.size ≤ maxIdentifier) (hc : ∀ l ∈ c, l.isValid = true ∧ l.var ≤ n)
    (h : Plain.unresolved? s.clauses c p = some (d, U)) :
    resolution s n c p ⟨c, d, ⟨c, U⟩⟩ = .ok () := by
  obtain ⟨hd, hp, htaut, hrest⟩ := Plain.rest?_of_unresolved? h
  have hfound : (s.find? d).isSome = true := (hs.indexed.find? d).2 ⟨d, hd, rfl⟩
  have hpd : d.contains (-p) = true := by simpa using hp
  have hchain := chain_of_rest? hs hsize (Engine.resolve_literals p hs.literals hc hd) hrest
  simp only [resolution, then_eq_ok, demand_eq_ok]
  exact ⟨by simp, hfound, hpd, by simp [htaut], hchain⟩

/-- The clause of the evidence may be written in another way than the live clause that it names. -/
theorem unresolved?_of_resolution {p : Literal} {rat : RatFailure} (hs : s.Within n)
    (hc : ∀ l ∈ c, l.isValid = true ∧ l.var ≤ n) (h : resolution s n c p rat = .ok ()) :
    ∃ x, Plain.unresolved? s.clauses c p = some x := by
  simp only [resolution, then_eq_ok, demand_eq_ok] at h
  obtain ⟨_, hfound, hp, htaut, hchain⟩ := h
  obtain ⟨d, hd, hkey⟩ := (hs.indexed.find? rat.pivotClause).1 hfound
  have hsame := Clause.key_eq_key.1 hkey
  have hres : ∀ l, l ∈ Clause.resolve c p d ↔ l ∈ Clause.resolve c p rat.pivotClause := by
    intro l
    rw [Clause.mem_resolve, Clause.mem_resolve, hsame]
  have hlits := Engine.resolve_literals p hs.literals hc hd
  have hclash := not_clash_of_chain hs (fun l hl => hlits l ((hres l).2 hl)) hchain
  cases hunres : Plain.unresolved? s.clauses c p with
  | some x => exact ⟨x, rfl⟩
  | none =>
    have hpd : -p ∈ d := (hsame _).2 (by simpa using hp)
    rcases Plain.clash_of_unresolved? hs.indexed.nodup_clauses hunres hd hpd with htaut' | hclash'
    · rw [Clause.isTautology_congr hres] at htaut'
      simp [htaut'] at htaut
    · refine absurd (hclash'.mono (fun _ h => h) fun l hl => ?_) hclash
      rw [Clause.mem_opposites] at hl ⊢
      exact (hres _).1 hl

/-- The evidence of the plain checker passes. -/
theorem rejection_of_objection? {rup : RupFailure} {rat : Option RatFailure} {v : Verdict}
    (hs : s.Within n) (hsize : s.size ≤ maxIdentifier) (hc : ∀ l ∈ c, l.isValid = true ∧ l.var ≤ n)
    (h : Plain.objection? s.clauses c = some (rup, rat)) (hrup : v.rup = some rup)
    (hrat : v.rat = rat) : rejection s n c v = .ok () := by
  unfold Plain.objection? at h
  cases hrest : Plain.rest? s.clauses c with
  | none => simp [hrest] at h
  | some U =>
    have hchain := chain_of_rest? hs hsize hc hrest
    rw [hrest] at h
    cases c with
    | nil =>
      cases h
      unfold rejection
      rw [hrup, hrat]
      exact then_eq_ok.2 ⟨demand_eq_ok.2 (by simp), then_eq_ok.2 ⟨hchain, rfl⟩⟩
    | cons p c =>
      obtain ⟨⟨d, V⟩, hunres, heq⟩ := Option.map_eq_some_iff.1 h
      cases heq
      have hres := resolution_of_unresolved? hs hsize hc hunres
      unfold rejection
      rw [hrup, hrat]
      exact then_eq_ok.2 ⟨demand_eq_ok.2 (by simp), then_eq_ok.2 ⟨hchain, hres⟩⟩

/-- Evidence that passes is against a clause to which the plain checker objects. -/
theorem objection?_of_rejection {v : Verdict} (hs : s.Within n)
    (hc : ∀ l ∈ c, l.isValid = true ∧ l.var ≤ n) (h : rejection s n c v = .ok ()) :
    s.size ≤ maxIdentifier ∧ ∃ x, Plain.objection? s.clauses c = some x := by
  unfold rejection at h
  cases hrup : v.rup with
  | none => simp [hrup] at h
  | some rup =>
    simp only [hrup, then_eq_ok] at h
    obtain ⟨_, hchain, h⟩ := h
    refine ⟨((chain_eq_ok hs hc).1 hchain).1, ?_⟩
    have hclash := not_clash_of_chain hs hc hchain
    cases hrest : Plain.rest? s.clauses c with
    | none => exact absurd ((Plain.rest?_eq_none_iff hs.indexed.nodup_clauses).1 hrest) hclash
    | some U =>
      cases c with
      | nil => exact ⟨_, by rw [Plain.objection?, hrest]⟩
      | cons p c =>
        cases hrat : v.rat with
        | none => simp [hrat] at h
        | some rat =>
          rw [hrat] at h
          obtain ⟨x, hx⟩ := unresolved?_of_resolution hs hc h
          exact Option.isSome_iff_exists.1 (by simp [Plain.objection?, hrest, hx])

end

theorem within_of_replay {f : Formula} {p q : Proof} {s : Store} (hf : f.Valid) (hp : p.Valid)
    (hq : q <+: p) (h : Store.replay f q = .ok s) : s.Within (Session.maxVar f p) := by
  obtain ⟨hindexed, hclauses⟩ := Store.replay_clauses h
  refine ⟨hindexed, fun d hd l hl => ?_⟩
  rw [hclauses] at hd
  rcases Plain.mem_applyAll hd with hd | ⟨c, hc, rfl⟩
  · obtain ⟨c, hc, rfl⟩ := List.mem_map.1 hd
    have hl := List.mem_eraseDups.1 hl
    exact ⟨hf c hc l hl, Nat.le_trans (Formula.var_le_maxVar hc hl) (Nat.le_max_left _ _)⟩
  · have hl : l ∈ (Step.add c).literals := List.mem_eraseDups.1 hl
    have hc := hq.subset hc
    exact ⟨hp _ hc l hl, Nat.le_trans (Proof.var_le_maxVar hc hl) (Nat.le_max_right _ _)⟩

theorem accepted_eq_ok {p : Proof} {v : Verdict} (h : v.accepted = some (Proof.additions p)) :
    accepted p v = .ok () := by
  simp [accepted, h]

theorem step_delete (f : Formula) (q : Proof) (c : Clause) (r : Proof) (v : Verdict) :
    step f (q ++ .delete c :: r) v (q.length + 1) = object (.stepIsDeletion (q.length + 1)) := by
  rw [step, Verdict.stepsBefore_succ (by simp)]
  simp [demand, lift, Except.mapError, bind, Except.bind]

theorem step_add (f : Formula) (q : Proof) (c : Clause) (r : Proof) (v : Verdict) :
    step f (q ++ .add c :: r) v (q.length + 1) = (do
      accepted q v
      let s ← lift (Store.replay f q)
      rejection s (Session.maxVar f (q ++ .add c :: r)) c v) := by
  rw [step, Verdict.stepsBefore_succ (by simp)]
  simp [demand, lift, Except.mapError, bind, Except.bind, Session.maxVar]

/-- A step that is in the proof and adds a clause has evidence to look at; any other one is objected
    to. -/
theorem step_cases (f : Formula) (p : Proof) (v : Verdict) (k : Nat) :
    (∃ o, step f p v k = object o) ∨ ∃ q c r, p = q ++ .add c :: r ∧ k = q.length + 1 := by
  by_cases hk : 1 ≤ k ∧ k ≤ p.length
  swap
  · have hrange : (1 ≤ k && k ≤ p.length) = false := by simpa using hk
    exact .inl ⟨_, by rw [step, hrange]; rfl⟩
  obtain ⟨n, rfl⟩ : ∃ n, k = n + 1 := ⟨k - 1, by omega⟩
  have hlt : n < p.length := hk.2
  have hsplit : p = p.take n ++ p[n] :: p.drop (n + 1) := by
    rw [← List.drop_eq_getElem_cons hlt, List.take_append_drop]
  have hlen : (p.take n).length = n := by
    rw [List.length_take, Nat.min_eq_left (Nat.le_of_lt hlt)]
  generalize p[n] = last at hsplit
  cases last with
  | delete c =>
    have hobject := step_delete f (p.take n) c (p.drop (n + 1)) v
    rw [← hsplit, hlen] at hobject
    exact .inl ⟨_, hobject⟩
  | add c => exact .inr ⟨p.take n, c, _, hsplit, by rw [hlen]⟩

theorem step_eq_ok {f : Formula} {p : Proof} {v : Verdict} {k : Nat} :
    step f p v k = .ok () ↔ ∃ q c r s, p = q ++ .add c :: r ∧ k = q.length + 1 ∧
      accepted q v = .ok () ∧ Store.replay f q = .ok s ∧
      rejection s (Session.maxVar f p) c v = .ok () := by
  constructor
  · intro h
    rcases step_cases f p v k with ⟨o, ho⟩ | ⟨q, c, r, rfl, rfl⟩
    · exact absurd (ho.symm.trans h) object_ne_ok
    · rw [step_add] at h
      obtain ⟨haccepted, h⟩ := then_eq_ok.1 h
      obtain ⟨s, hs, h⟩ := bind_eq_ok.1 h
      exact ⟨q, c, r, s, rfl, rfl, haccepted, lift_eq_ok.1 hs, h⟩
  · rintro ⟨q, c, r, s, rfl, rfl, haccepted, hs, h⟩
    rw [step_add]
    exact then_eq_ok.2 ⟨haccepted, bind_eq_ok.2 ⟨s, lift_eq_ok.2 hs, h⟩⟩

theorem noEmptyClause_eq_ok {p : Proof} {v : Verdict} :
    noEmptyClause p v = .ok () ↔ Step.add [] ∉ p ∧ accepted p v = .ok () := by
  have hnone : p.findIdx? (· == Step.add []) = none ↔ Step.add [] ∉ p := by
    simp only [List.findIdx?_eq_none_iff, beq_eq_false_iff_ne]
    exact ⟨fun h hmem => h _ hmem rfl, fun h step hstep he => h (he ▸ hstep)⟩
  rw [noEmptyClause, ← hnone]
  cases p.findIdx? (· == Step.add []) <;> simp

end Recheck

/-- Every rejection with evidence passes the re-check. -/
theorem recheck_of_invalid {f : Formula} {p : Proof} (mode : Mode) {v : Verdict} (hf : f.Valid)
    (hp : p.Valid) (h : checkProof f p ⟨mode, true⟩ = .ok v) (hv : v.outcome = .invalid) :
    recheck f p v = .ok () := by
  obtain ⟨s, u, q, r, t, rfl, hloaded, hr, hflags, hrun⟩ := reaches_of_checkProof hf hp h
  have hfree := hr.free
  rw [hflags] at hfree
  unfold recheck
  cases hr.halts with
  | finished =>
    obtain ⟨w, hw, _⟩ := Session.advance_finished t t.engine.store.clauses (q.length + 1)
    cases hw.symm.trans hrun
    rw [hflags, hr.proof] at hv ⊢
    cases mode with
    | derivation => cases hv
    | full =>
      refine Recheck.noEmptyClause_eq_ok.2 ⟨?_, Recheck.accepted_eq_ok rfl⟩
      rw [List.append_nil]
      exact hfree rfl
  | @rejected c r rup rat _ hobj hintroduce =>
    obtain ⟨w, hw, _⟩ := Session.advance_rejected hr.idle hr.rest.head hintroduce hr.proof r
    cases hw.symm.trans hrun
    have hsize := Session.size_le_of_rejected hr.idle hr.rest.head hintroduce (by simp [hflags])
    rw [hflags]
    refine Recheck.step_eq_ok.2 ⟨q, c, r, t.engine.store, rfl, rfl, Recheck.accepted_eq_ok rfl,
      hr.replay, ?_⟩
    have hwithin := Recheck.within_of_replay hf hp (List.prefix_append _ _) hr.replay
    exact Recheck.rejection_of_objection? hwithin hsize (hr.maxVar ▸ hr.rest.head) hobj rfl rfl
  | @completed r w hm hw =>
    cases (Session.advance_completed hr.idle hm hw _ r).symm.trans hrun
    cases hv
  | exhausted _ herror => cases (Session.advance_exhausted herror _ _).symm.trans hrun

theorem recheck_of_invalid_resolvent :
    ∃ v, checkProof (Check.formulaOf [[1, 2], [-1, 2]]) (Check.proofOf [.add [-2]]) ⟨.full, true⟩ =
      .ok v ∧ v.outcome = .invalid ∧
      recheck (Check.formulaOf [[1, 2], [-1, 2]]) (Check.proofOf [.add [-2]]) v = .ok () := by
  have hcheck : checkProof (Check.formulaOf [[1, 2], [-1, 2]]) (Check.proofOf [.add [-2]])
      ⟨.full, true⟩ = .ok ⟨.invalid, some 1, some [], some ⟨[⟨2, true⟩], [⟨2, false⟩]⟩,
        some ⟨[⟨2, true⟩], [⟨1, false⟩, ⟨2, false⟩], ⟨[⟨2, true⟩], [⟨1, true⟩, ⟨2, false⟩]⟩⟩⟩ := by
    decide +kernel
  exact ⟨_, hcheck, rfl, recheck_of_invalid .full (Check.valid_formulaOf (by decide))
    (Check.valid_proofOf (by decide)) hcheck rfl⟩

section

variable {f : Formula} {p : Proof} {mode : Mode} {v : Verdict}

/-- A rejection with evidence is for lack of the empty clause, or for an addition to which the plain
    checker objects. -/
theorem checkProof_invalid (hf : f.Valid) (hp : p.Valid) (h : checkProof f p ⟨mode, true⟩ = .ok v)
    (hv : v.outcome = .invalid) :
    (v = ⟨.invalid, none, some (Proof.additions p), none, none⟩ ∧ Step.add [] ∉ p) ∨
    ∃ q c r s rup rat, p = q ++ .add c :: r ∧
      v = ⟨.invalid, some (q.length + 1), some (Proof.additions q), some rup, rat⟩ ∧
      Store.replay f q = .ok s ∧ s.size ≤ maxIdentifier ∧
      Plain.objection? s.clauses c = some (rup, rat) := by
  obtain ⟨s, u, q, r, t, rfl, hloaded, hr, hflags, hrun⟩ := reaches_of_checkProof hf hp h
  cases hr.closes hrun with
  | derived => cases hv
  | lacking hm =>
    rw [hflags, List.append_nil]
    exact .inl ⟨rfl, hr.free hm⟩
  | completed => cases hv
  | @rejected c r rup rat _ hobj hintroduce =>
    have hsize := Session.size_le_of_rejected hr.idle hr.rest.head hintroduce (by simp [hflags])
    rw [hflags]
    exact .inr ⟨q, c, r, t.engine.store, rup, rat, rfl, rfl, hr.replay, hsize, hobj⟩

/-- A rejection passes the re-check against its own proof, and against no steps at all if that proof
    adds nothing. -/
theorem recheck_again {p' : Proof} (hf : f.Valid) (hp : p.Valid)
    (h : checkProof f p ⟨mode, true⟩ = .ok v) (hv : v.outcome = .invalid)
    (hagain : p' = p ∨ p' = [] ∧ Proof.additions p = []) : recheck f p' v = .ok () := by
  rcases checkProof_invalid hf hp h hv with 
    ⟨rfl, hfree⟩ | ⟨q, c, r, s, rup, rat, rfl, rfl, hs, hsize, hobj⟩
  · refine Recheck.noEmptyClause_eq_ok.2 ?_
    rcases hagain with rfl | ⟨rfl, hnone⟩
    · exact ⟨hfree, Recheck.accepted_eq_ok rfl⟩
    · exact ⟨List.not_mem_nil, Recheck.accepted_eq_ok (congrArg some hnone)⟩
  · -- the rejected step is an addition, so the proof is not empty
    obtain rfl : p' = q ++ .add c :: r :=
      hagain.resolve_right fun hnil => absurd hnil.2 (by
        simp [Proof.additions_append, Proof.additions_cons, Step.added?])
    have hwithin := Recheck.within_of_replay hf hp (List.prefix_append _ _) hs
    have hmem : Step.add c ∈ q ++ .add c :: r := by simp
    have hc : ∀ l ∈ c, l.isValid = true ∧ l.var ≤ Session.maxVar f (q ++ .add c :: r) := fun l hl =>
      ⟨hp _ hmem l hl, Nat.le_trans (Proof.var_le_maxVar hmem hl) (Nat.le_max_right _ _)⟩
    exact Recheck.step_eq_ok.2 ⟨q, c, r, s, rfl, rfl, Recheck.accepted_eq_ok rfl, hs,
      Recheck.rejection_of_objection? hwithin hsize hc hobj rfl rfl⟩

/-- Without the steps, the accepted clauses or the step of a rejection are missed. -/
theorem recheck_nil (hf : f.Valid) (hp : p.Valid) (h : checkProof f p ⟨mode, true⟩ = .ok v)
    (hv : v.outcome = .invalid) (hadds : Proof.additions p ≠ []) :
    ∃ o, recheck f [] v = .error (.objection o) := by
  rcases checkProof_invalid hf hp h hv with ⟨rfl, _⟩ | ⟨q, c, r, s, rup, rat, rfl, rfl, _⟩
  · refine ⟨.acceptedDiffer (Proof.additions p).length 0, ?_⟩
    change Recheck.demand (Proof.additions p == []) _ = _
    rw [beq_false_of_ne hadds]
    rfl
  · exact ⟨.stepExceedsProof (q.length + 1), rfl⟩

end

/-- A run does not get beyond a step with an objection to its clause. -/
theorem Session.Reaches.behind {f : Formula} {s t : Session} {q r q₀ r₀ : Proof} {c : Clause}
    {flags : Flags} {st : Store} {x : RupFailure × Option RatFailure} (h : Reaches f s q r t)
    (hloaded : Loaded f (q ++ r) flags s) (hp : (q ++ r).Valid)
    (hsplit : q ++ r = q₀ ++ .add c :: r₀) (hreplay : Store.replay f q₀ = .ok st)
    (hobj : Plain.objection? st.clauses c = some x) :
    ∃ a, q₀ = q ++ a ∧ r = a ++ .add c :: r₀ := by
  rcases List.append_eq_append_iff.1 hsplit with hbehind | ⟨a, rfl, ha⟩
  · exact hbehind
  cases a with
  | nil => exact ⟨[], by simp, ha.symm⟩
  | cons step a =>
    obtain ⟨rfl, _⟩ := List.cons.inj ha
    obtain ⟨s₁, h₁, h₂⟩ := h.accepts.of_append
    have hprefix : q₀ <+: q₀ ++ Step.add c :: a ++ r := by simp
    have hst := hloaded.replay hp hprefix h₁
    obtain rfl : s₁.engine.store = st := Except.ok.inj (hst.symm.trans hreplay)
    obtain ⟨hkeeps, _⟩ := h₁.keeps hloaded.idle (hloaded.within_prefix hp hprefix)
    cases h₂ with
    | next htakes _ =>
      have hc : ∀ l ∈ c, l.isValid = true ∧ l.var ≤ s₁.engine.maxVar :=
        hkeeps.maxVar.symm ▸ hloaded.within hp (.add c) (by simp)
      rw [htakes.objection? hkeeps.idle hc] at hobj
      cases hobj

/-- A derivation is rejected no later than at a step to which the plain checker objects, if the
    steps before it can be applied and leave an identifier. -/
theorem Session.Reaches.rejected {f : Formula} {s t : Session} {q r q₀ r₀ : Proof} {c : Clause}
    {flags : Flags} {st : Store} {x : RupFailure × Option RatFailure} (h : Reaches f s q r t)
    (hloaded : Loaded f (q ++ r) flags s) (hp : (q ++ r).Valid) (hmode : t.flags.mode = .derivation)
    (hsplit : q ++ r = q₀ ++ .add c :: r₀) (hreplay : Store.replay f q₀ = .ok st)
    (hsize : st.size ≤ maxIdentifier) (hobj : Plain.objection? st.clauses c = some x) :
    q.length ≤ q₀.length ∧ ∃ d rest rup rat u, r = .add d :: rest ∧
      t.introduce d = .ok (u, some (.of t.flags.evidence rup rat)) := by
  obtain ⟨a, rfl, hr⟩ := h.behind hloaded hp hsplit hreplay hobj
  refine ⟨by simp, ?_⟩
  cases h.halts with
  | finished => simp at hr
  | @rejected d rest rup rat u _ hu => exact ⟨d, rest, rup, rat, u, rfl, hu⟩
  | completed hm _ =>
    rw [hmode] at hm
    cases hm
  | @exhausted d rest hfull _ =>
    -- without an identifier for its clause the step cannot be applied either
    cases a with
    | nil =>
      rw [List.append_nil, h.replay] at hreplay
      obtain rfl := Except.ok.inj hreplay
      omega
    | cons step a =>
      obtain ⟨rfl, _⟩ := List.cons.inj hr
      rw [Store.replay_append h.replay] at hreplay
      have hle := Store.size_le_of_applyAll hreplay
      omega

/-- Evidence that passes names an addition to which the plain checker objects. -/
theorem Recheck.objection?_of_recheck {f : Formula} {p : Proof} {w : Verdict} {k : Nat} (hf : f.Valid)
    (hp : p.Valid) (h : recheck f p w = .ok ()) (hk : w.step = some k) :
    ∃ q c r s x, p = q ++ .add c :: r ∧ k = q.length + 1 ∧ Store.replay f q = .ok s ∧
      s.size ≤ maxIdentifier ∧ Plain.objection? s.clauses c = some x := by
  unfold recheck at h
  rw [hk] at h
  split at h
  · exact absurd h object_ne_ok
  obtain ⟨q, c, r, s, hsplit, rfl, _, hreplay, hrejection⟩ := step_eq_ok.1 h
  have hprefix : q <+: p := ⟨_, hsplit.symm⟩
  have hmem : Step.add c ∈ p := hsplit ▸ by simp
  have hc : ∀ l ∈ c, l.isValid = true ∧ l.var ≤ Session.maxVar f p := fun l hl =>
    ⟨hp _ hmem l hl, Nat.le_trans (Proof.var_le_maxVar hmem hl) (Nat.le_max_right _ _)⟩
  obtain ⟨hsize, x, hobj⟩ :=
    objection?_of_rejection (within_of_replay hf hp hprefix hreplay) hc hrejection
  exact ⟨q, c, r, s, x, hsplit, rfl, hreplay, hsize, hobj⟩

theorem checkProof_of_recheck {f : Formula} {p : Proof} {w : Verdict} {k : Nat} (hf : f.Valid)
    (hp : p.Valid) (h : recheck f p w = .ok ()) (hk : w.step = some k) :
    ∃ v i, checkProof f p ⟨.derivation, true⟩ = .ok v ∧ v.outcome = .invalid ∧ v.step = some i ∧
      i ≤ k := by
  obtain ⟨q₀, c, r₀, st, x, hsplit, rfl, hreplay, hsize, hobj⟩ := Recheck.objection?_of_recheck hf hp h hk
  rcases Session.start_cases (p := p) hf ⟨.derivation, true⟩ with
    ⟨s, hs, hready, hloaded⟩ | ⟨_, hstore, _⟩
  · obtain ⟨q, r, t, rfl, hr⟩ := hloaded.reaches hready hp
    have hflags := hr.flags.trans hloaded.flags
    obtain ⟨hle, d, rest, rup, rat, w, rfl, hw⟩ :=
      hr.rejected hloaded hp (congrArg Flags.mode hflags) hsplit hreplay hsize hobj
    obtain ⟨u, hu, _⟩ := Session.advance_rejected hr.idle hr.rest.head hw hr.proof rest
    rw [hflags] at hu
    refine ⟨⟨.invalid, some (q.length + 1), some (Proof.additions q), some rup, rat⟩, q.length + 1,
      ?_, rfl, rfl, Nat.succ_le_succ hle⟩
    have hrun := hr.run.trans hu
    rw [checkProof, hs]
    simp only [bind, Except.bind, hrun]
    rfl
  · rw [Store.replay, hstore] at hreplay
    cases hreplay

theorem Plain.outcome_advance_full {cs accepted : List Clause} {i : Nat} {p : Proof}
    (h : Step.add [] ∉ p) : (advance .full cs accepted i p).outcome = .invalid := by
  induction p generalizing cs accepted i with
  | nil => rfl
  | cons step p ih =>
    have hp : Step.add [] ∉ p := fun hmem => h (List.mem_cons_of_mem _ hmem)
    cases step with
    | delete c => exact ih hp
    | add c =>
      have hc : c ≠ [] := fun hc => h (hc ▸ List.mem_cons_self)
      rw [advance]
      cases objection? cs c with
      | some found => rfl
      | none =>
        simp only [hc, false_and, if_false]
        exact ih hp

theorem Recheck.not_mem_of_recheck {f : Formula} {p : Proof} {w : Verdict}
    (h : recheck f p w = .ok ()) (hw : w.step = none) : Step.add [] ∉ p := by
  unfold recheck at h
  rw [hw] at h
  split at h
  · exact absurd h object_ne_ok
  · exact (noEmptyClause_eq_ok.1 h).1

/-- Whatever passes the re-check is right about the proof. If it names a step, checking the proof as
    a derivation rejects it there or earlier; if it names none, the proof is not a full proof, where
    the check returns as long as there are identifiers for all clauses. -/
theorem invalid_of_recheck (f : List (List Int)) (p : List NumberStep) (w : Verdict)
    (hf : ∀ vs ∈ f, ∀ v ∈ vs, Check.denotesLiteral v = true)
    (hp : ∀ s ∈ p, ∀ v ∈ Check.values s, Check.denotesLiteral v = true)
    (h : recheck (Check.formulaOf f) (Check.proofOf p) w = .ok ()) :
    (∀ k, w.step = some k → ∃ v i, check f p .derivation true = .ok (.ok v) ∧
      v.outcome = .invalid ∧ v.step = some i ∧ i ≤ k) ∧
    (w.step = none → ∀ evidence,
      (∀ r, check f p .full evidence = .ok r → ∃ v, r = .ok v ∧ v.outcome = .invalid) ∧
      (f.length + (Proof.additions (Check.proofOf p)).length ≤ maxIdentifier + 1 →
        ∃ v, check f p .full evidence = .ok (.ok v) ∧ v.outcome = .invalid)) := by
  have hvf := Check.valid_formulaOf hf
  have hvp := Check.valid_proofOf hp
  constructor
  · intro k hk
    obtain ⟨v, i, hv, hrest⟩ := checkProof_of_recheck hvf hvp h hk
    refine ⟨v, i, ?_, hrest⟩
    rw [check_eq hf hp, hv]
    rfl
  · intro hw evidence
    have hlength : (Check.formulaOf f).length = f.length := List.length_map _
    have hinvalid : ((Plain.check (Check.formulaOf f) (Check.proofOf p) .full).shown
        evidence).outcome = .invalid := by
      rw [Verdict.outcome_shown]
      exact Plain.outcome_advance_full (Recheck.not_mem_of_recheck h hw)
    rw [check_eq hf hp]
    rcases checkProof_cases hvf hvp ⟨.full, evidence⟩ with hok | ⟨herror, hlt⟩
    · rw [hok]
      refine ⟨fun r hr => ?_, fun _ => ⟨_, rfl, hinvalid⟩⟩
      exact ⟨_, (Except.ok.inj hr).symm, hinvalid⟩
    · rw [herror]
      refine ⟨fun r hr => (by cases hr), fun hle => ?_⟩
      omega

/-- The evidence repeats literals and writes the live clause in another order. -/
theorem invalid_of_recheck_reordered :
    recheck (Check.formulaOf [[1, 2], [-1, 2]]) (Check.proofOf [.add [-2]])
      ⟨.invalid, some 1, none, some ⟨[⟨2, true⟩], [⟨1, true⟩, ⟨2, false⟩, ⟨2, false⟩]⟩,
        some ⟨[⟨2, true⟩], [⟨2, false⟩, ⟨1, false⟩, ⟨2, false⟩],
          ⟨[⟨2, true⟩], [⟨2, false⟩, ⟨1, true⟩]⟩⟩⟩ = .ok () ∧
    ∃ v i, check [[1, 2], [-1, 2]] [.add [-2]] .derivation true = .ok (.ok v) ∧
      v.outcome = .invalid ∧ v.step = some i ∧ i ≤ 1 := by
  have hpasses : recheck (Check.formulaOf [[1, 2], [-1, 2]]) (Check.proofOf [.add [-2]])
      ⟨.invalid, some 1, none, some ⟨[⟨2, true⟩], [⟨1, true⟩, ⟨2, false⟩, ⟨2, false⟩]⟩,
        some ⟨[⟨2, true⟩], [⟨2, false⟩, ⟨1, false⟩, ⟨2, false⟩],
          ⟨[⟨2, true⟩], [⟨2, false⟩, ⟨1, true⟩]⟩⟩⟩ = .ok () := by decide +kernel
  exact ⟨hpasses, (invalid_of_recheck _ _ _ (by decide) (by decide) hpasses).1 1 rfl⟩

end ClausalProof
