import ClausalProof.Proofs.Engine.History
import ClausalProof.Proofs.Spelling

set_option autoImplicit false

/-!
What an accepted clause tells about the live clauses, whatever the clause and the history of the
engine. A refutation reads its clause from the front and may be over before it comes to a literal that
has no place in the tables, so an answer rests on the literals that have been read. An implied clause
clashes with the live clauses, and so does every longer clause with as many clauses or more. A clause
that is live, or written as a live one with its literals in another order and number, is implied,
although its negation falsifies the stored clause at once and no watch is left to fall back on. A clause
whose resolvents are implied costs a valuation of the live clauses no more than its first literal.
-/
namespace ClausalProof.Engine

/-- An assignment that returns is one of a valid literal with a place in the tables. -/
theorem Running.known_of_assign {e f : Engine} {l : Literal} {reason : Reason} {p : Progress}
    (h : e.Running) (hok : e.assign l reason = .ok (f, p)) :
    l.isValid = true ∧ l.var ≤ e.maxVar := by
  simp only [Engine.assign, Checked.bind_eq_ok] at hok
  obtain ⟨isFalse, hfalse, hok⟩ := hok
  have hvar : l.var ≤ e.maxVar := by
    have hlt := (Array.getElem?_eq_some_iff.1 (Bounded.get_eq_ok.1 hfalse)).1
    rw [h.faithful.truth_size] at hlt
    exact Literal.code_lt_literalSlots (l := -l).1 hlt
  refine ⟨?_, hvar⟩
  obtain rfl := Except.ok.inj ((h.faithful.value (l := -l) hvar).symm.trans hfalse)
  split at hok
  · rename_i hneg
    exact h.faithful.valid (-l) (of_decide_eq_true hneg)
  · obtain ⟨isTrue, htrue, hok⟩ := Checked.bind_eq_ok.1 hok
    obtain rfl := Except.ok.inj ((h.faithful.value hvar).symm.trans htrue)
    split at hok
    · rename_i hpos
      exact h.faithful.valid l (of_decide_eq_true hpos)
    · obtain ⟨t, hpush, _⟩ := Checked.bind_eq_ok.1 hok
      exact (Trail.push_eq_ok.1 hpush).1

/-- Assuming a clause ends as assuming some first part of it, the literals of which are known. -/
theorem Running.exists_known_of_assume {e f : Engine} {c : Clause} {p : Progress} (h : e.Running)
    (hok : e.assume c = .ok (f, p)) :
    ∃ q, q <+: c ∧ (∀ l ∈ q, l.isValid = true ∧ l.var ≤ e.maxVar) ∧ e.assume q = .ok (f, p) ∧
      (p = .quiet → q = c) := by
  induction c generalizing e with
  | nil => exact ⟨[], List.prefix_refl [], by simp, hok, fun _ => rfl⟩
  | cons l c ih =>
    obtain ⟨⟨g, r⟩, hassign, hok⟩ := Checked.bind_eq_ok.1 hok
    have hl : l.isValid = true ∧ l.var ≤ e.maxVar := h.known_of_assign (l := -l) hassign
    cases r with
    | conflict =>
      cases Checked.pure_eq_ok.1 hok
      refine ⟨[l], ⟨c, rfl⟩, by simpa using hl, ?_, by simp⟩
      rw [Engine.assume, hassign]
      rfl
    | quiet =>
      obtain ⟨hg, hmax⟩ : g.Running ∧ g.maxVar = e.maxVar := by
        rcases h.assign (l := -l) (Q := fun _ => True) .assumed hl.1 hl.2 (fun _ _ _ => trivial)
          trivial with ⟨hconflict, _⟩ | ⟨k, hk, hon, _, hrunning, _⟩
        · cases hconflict.symm.trans hassign
        · cases hk.symm.trans hassign
          exact ⟨hrunning, hon.maxVar⟩
      obtain ⟨q, hq, hknown, hassume, hquiet⟩ := ih hg hok
      refine ⟨l :: q, List.cons_prefix_cons.2 ⟨rfl, hq⟩, ?_, ?_, fun hp => by rw [hquiet hp]⟩
      · exact List.forall_mem_cons.2 ⟨hl, hmax ▸ hknown⟩
      · rw [Engine.assume, hassign]
        exact hassume

theorem Idle.exists_known_of_refute {e f : Engine} {c : Clause} {p : Progress} (h : e.Idle)
    (hok : e.refute c = .ok (f, p)) :
    ∃ q, q <+: c ∧ (∀ l ∈ q, l.isValid = true ∧ l.var ≤ e.maxVar) ∧ e.refute q = .ok (f, p) ∧
      (p = .quiet → q = c) := by
  obtain ⟨_, hempty, hbody⟩ := Checked.bind_eq_ok.1 hok
  split at hbody
  · rename_i hnil
    cases Checked.pure_eq_ok.1 hbody
    refine ⟨[], List.nil_prefix, by simp, ?_, by simp⟩
    simp [Engine.refute, hempty, hnil, bind, Except.bind, pure, Except.pure]
  · rename_i hnil
    obtain ⟨⟨g, r⟩, hassume, hbody⟩ := Checked.bind_eq_ok.1 hbody
    obtain ⟨q, hq, hknown, hassume', hquiet⟩ := h.running.exists_known_of_assume hassume
    cases r with
    | conflict =>
      cases Checked.pure_eq_ok.1 hbody
      refine ⟨q, hq, hknown, ?_, by simp⟩
      simp [Engine.refute, hempty, hnil, hassume', bind, Except.bind, pure, Except.pure]
    | quiet =>
      obtain rfl := hquiet rfl
      exact ⟨q, hq, hknown, hok, fun _ => rfl⟩

/-- A refutation that returns can be called off, and a conflict shows that the clause clashes. -/
theorem Idle.of_refute {e f : Engine} {c : Clause} {p : Progress} (h : e.Idle)
    (hok : e.refute c = .ok (f, p)) :
    ∃ g, f.backtrack = .ok g ∧ g.Idle ∧ g.store = e.store ∧ g.maxVar = e.maxVar ∧
      (p = .conflict → Clash e.store.clauses c.opposites) := by
  obtain ⟨q, hq, hknown, hrefute, _⟩ := h.exists_known_of_refute hok
  obtain ⟨f', r, hf', hon, hrunning, hconflict, _⟩ := h.refute_closure hknown
  cases hf'.symm.trans hrefute
  obtain ⟨g, hback, hidle, hstore, hmax⟩ := hrunning.backtrack
  refine ⟨g, hback, hidle, hstore.trans hon.store, hmax.trans hon.maxVar, fun hp => ?_⟩
  refine (hconflict hp).mono (fun _ hd => hd) fun l hl => ?_
  exact Clause.mem_opposites.2 (hq.subset (Clause.mem_opposites.1 hl))

/-- A check that accepts a clause has found a clash. -/
theorem Idle.of_checkImplied {e f : Engine} {c reported : Clause} {evidence : Bool} (h : e.Idle)
    (hok : e.checkImplied c reported evidence = .ok (f, .holds)) :
    Clash e.store.clauses c.opposites ∧ f.Idle ∧ f.store = e.store := by
  obtain ⟨⟨g, p⟩, hg, hok⟩ := Checked.bind_eq_ok.1 hok
  obtain ⟨k, hback, hidle, hstore, _, hclash⟩ := h.of_refute hg
  rw [← h.restore_eq g] at hback
  cases p with
  | conflict =>
    simp only [hback, bind, Except.bind, pure, Except.pure] at hok
    cases hok
    exact ⟨hclash rfl, hidle, hstore⟩
  | quiet =>
    cases evidence with
    | false =>
      simp only [hback, bind, Except.bind, pure, Except.pure] at hok
      cases hok
    | true =>
      obtain ⟨_, _, hok⟩ := Checked.bind_eq_ok.1 hok
      simp only [hback, bind, Except.bind, pure, Except.pure] at hok
      cases hok

/-- Implication is monotone: what one engine accepts, another one accepts with more literals in the
    clause and more clauses, however the clauses are written and wherever its watches stand. -/
theorem checkImplied_mono (n n' : Nat) (e e' : Engine) (he : e.Reached n) (he' : e'.Reached n')
    (c c' reported : Clause) (evidence : Bool) (f : Engine)
    (hc' : ∀ l ∈ c', l.isValid = true ∧ l.var ≤ n')
    (hlive : ∀ d ∈ e.store.clauses, ∃ d' ∈ e'.store.clauses, Respelled d d')
    (hsub : ∀ l ∈ c, l ∈ c') (hf : e.checkImplied c reported evidence = .ok (f, .holds))
    (reported' : Clause) (evidence' : Bool) :
    ∃ f', e'.checkImplied c' reported' evidence' = .ok (f', .holds) := by
  obtain ⟨hidle, rfl⟩ := he.idle
  obtain ⟨hidle', rfl⟩ := he'.idle
  obtain ⟨hclash, _⟩ := hidle.of_checkImplied hf
  have hclash' : Clash e'.store.clauses c'.opposites :=
    hclash.respelled hlive fun l hl => Clause.mem_opposites.2 (hsub _ (Clause.mem_opposites.1 hl))
  obtain ⟨f', hf', _⟩ := hidle'.checkImplied hc'
  rw [(Plain.rest?_eq_none_iff hidle'.indexed.nodup_clauses).2 hclash'] at hf'
  exact ⟨f', hf' reported' evidence'⟩

def narrowHistory : List Operation :=
  [.add [⟨1, false⟩, ⟨2, false⟩] false, .add [⟨1, true⟩, ⟨2, false⟩] false]

/-- The clauses of `narrowHistory` in another order and spelling, among others; a watch has moved. -/
def wideHistory : List Operation :=
  [.add [⟨4, false⟩] true, .add [⟨2, false⟩, ⟨1, true⟩, ⟨2, false⟩] true,
    .add [⟨1, false⟩, ⟨3, false⟩, ⟨4, false⟩] false, .refute [⟨1, false⟩],
    .add [⟨2, false⟩, ⟨1, false⟩] false, .delete [⟨4, false⟩]]

theorem checkImplied_mono_wide :
    ∃ e e' f f' replies replies', (empty 2).performAll narrowHistory = .ok (e, replies) ∧
      (empty 4).performAll wideHistory = .ok (e', replies') ∧
      e.checkImplied [⟨2, false⟩] [] false = .ok (f, .holds) ∧
      e'.checkImplied [⟨4, false⟩, ⟨3, true⟩, ⟨2, false⟩] [] true = .ok (f', .holds) := by
  have hrun : (do
      let x ← (empty 2).performAll narrowHistory
      let y ← (empty 4).performAll wideHistory
      let z ← x.1.checkImplied [⟨2, false⟩] [] false
      return (x.1.store.clauses, y.1.store.clauses, z.2)) =
      .ok ([[⟨1, false⟩, ⟨2, false⟩], [⟨1, true⟩, ⟨2, false⟩]],
        [[⟨2, false⟩, ⟨1, true⟩], [⟨1, false⟩, ⟨3, false⟩, ⟨4, false⟩], [⟨2, false⟩, ⟨1, false⟩]],
        .holds) := by decide +kernel
  obtain ⟨⟨e, replies⟩, he, hrun⟩ := Checked.bind_eq_ok.1 hrun
  obtain ⟨⟨e', replies'⟩, he', hrun⟩ := Checked.bind_eq_ok.1 hrun
  obtain ⟨⟨f, judgment⟩, hf, hrun⟩ := Checked.bind_eq_ok.1 hrun
  obtain ⟨hclauses, hclauses', rfl⟩ : e.store.clauses = _ ∧ e'.store.clauses = _ ∧ judgment = _ := by
    simpa using Checked.pure_eq_ok.1 hrun
  have hlive : ∀ d ∈ e.store.clauses, ∃ d' ∈ e'.store.clauses, Respelled d d' := by
    rw [hclauses, hclauses']
    simp only [List.forall_mem_cons, ← Clause.key_eq_key, Respelled]
    decide
  obtain ⟨f', hf'⟩ := checkImplied_mono 2 4 e e' ⟨narrowHistory, replies, by decide, he⟩
    ⟨wideHistory, replies', by decide, he'⟩ [⟨2, false⟩] [⟨4, false⟩, ⟨3, true⟩, ⟨2, false⟩] [] false f
    (by decide) hlive (by decide) hf [] true
  exact ⟨e, e', f, f', replies, replies', he, he', hf, hf'⟩

/-- A clause with the literals of a live one is implied again, whatever has been checked before, and
    a formula that has the clause anywhere makes it redundant. -/
theorem checkImplied_again :
    (∀ (n : Nat) (e : Engine), e.Reached n → ∀ c : Clause, (∃ d ∈ e.store.clauses, Respelled d c) →
      ∀ (reported : Clause) (evidence : Bool),
        ∃ f, e.checkImplied c reported evidence = .ok (f, .holds)) ∧
    (∀ (f g : List (List Int)) (c d : List Int),
      (∀ vs ∈ f ++ d :: g, ∀ v ∈ vs, Check.denotesLiteral v = true) → Respelled d c →
      (∀ r, checkStep (f ++ d :: g) c = .ok r → r = .ok true) ∧
      ((f ++ d :: g).length ≤ maxIdentifier → checkStep (f ++ d :: g) c = .ok (.ok true))) := by
  constructor
  · rintro n e he c ⟨d, hd, hdc⟩ reported evidence
    obtain ⟨hidle, rfl⟩ := he.idle
    have hc : ∀ l ∈ c, l.isValid = true ∧ l.var ≤ e.maxVar :=
      fun l hl => hidle.literals d hd l ((hdc l).2 hl)
    obtain ⟨f, hf, _⟩ := hidle.checkImplied hc
    rw [(Plain.rest?_eq_none_iff hidle.indexed.nodup_clauses).2 (.of_mem hd hdc)] at hf
    exact ⟨f, hf reported evidence⟩
  · intro f g c d hvalid hdc
    have hc : ∀ v ∈ c, Check.denotesLiteral v = true :=
      fun v hv => hvalid d (by simp) v ((hdc v).2 hv)
    have hmem : (d.map Literal.ofInt).eraseDups ∈
        (Check.formulaOf (f ++ d :: g)).map List.eraseDups := by
      simp [Check.formulaOf]
    have hrespelled : Respelled (d.map Literal.ofInt).eraseDups (c.map Literal.ofInt) :=
      fun l => List.mem_eraseDups.trans (hdc.map Literal.ofInt l)
    have hredundant := Plain.objection?_of_clash (Clause.nodup_map_eraseDups _)
      (Clash.of_mem hmem hrespelled)
    rcases checkStep_cases hvalid hc with hok | ⟨herror, hlt⟩
    · rw [hredundant] at hok
      exact ⟨fun r hr => (Except.ok.inj (hok.symm.trans hr)).symm, fun _ => hok⟩
    · exact ⟨fun r hr => (by cases herror.symm.trans hr), fun hle => (by omega)⟩

/-- The clause on 1, 3 and 4 does not watch its first two literals any more; the other one is a
    tautology with repeated literals. -/
theorem checkImplied_again_moved :
    (∃ e replies f, (empty 4).performAll wideHistory = .ok (e, replies) ∧
      e.checkImplied [⟨4, false⟩, ⟨1, false⟩, ⟨3, false⟩, ⟨1, false⟩] [] true = .ok (f, .holds)) ∧
    checkStep ([[2]] ++ [3, -1, 1, 3] :: [[-2, 1]]) [1, 3, -1, -1] = .ok (.ok true) := by
  constructor
  · have hrun : (do
        let x ← (empty 4).performAll wideHistory
        return x.1.store.clauses) = .ok [[⟨2, false⟩, ⟨1, true⟩], [⟨1, false⟩, ⟨3, false⟩, ⟨4, false⟩],
          [⟨2, false⟩, ⟨1, false⟩]] := by decide +kernel
    obtain ⟨⟨e, replies⟩, he, hrun⟩ := Checked.bind_eq_ok.1 hrun
    have hclauses : e.store.clauses = _ := Checked.pure_eq_ok.1 hrun
    have hlive : ∃ d ∈ e.store.clauses,
        Respelled d [⟨4, false⟩, ⟨1, false⟩, ⟨3, false⟩, ⟨1, false⟩] := by
      refine ⟨[⟨1, false⟩, ⟨3, false⟩, ⟨4, false⟩], by simp [hclauses], ?_⟩
      exact Clause.key_eq_key.1 (by decide)
    obtain ⟨f, hf⟩ := checkImplied_again.1 4 e ⟨wideHistory, replies, by decide, he⟩ _ hlive [] true
    exact ⟨e, replies, f, he, hf⟩
  · refine (checkImplied_again.2 [[2]] [[-2, 1]] _ _ (by decide) ?_).2 (by decide)
    intro v
    simp only [List.mem_cons, List.not_mem_nil, or_false]
    omega

theorem Idle.of_checkResolvents {e f : Engine} {c : Clause} {pivot : Literal} {evidence : Bool}
    {xs : List (Nat × Clause)} (h : e.Idle)
    (hok : e.checkResolvents c pivot evidence xs = .ok (f, .holds)) :
    ∀ x ∈ xs, (Clause.resolve c pivot x.2).isTautology = true ∨
      Clash e.store.clauses (Clause.resolve c pivot x.2).opposites := by
  induction xs generalizing e with
  | nil => simp
  | cons x xs ih =>
    obtain ⟨id, d⟩ := x
    rw [Engine.checkResolvents] at hok
    split at hok
    · rename_i htaut
      exact List.forall_mem_cons.2 ⟨.inl htaut, ih h hok⟩
    · obtain ⟨⟨g, judgment⟩, hg, hok⟩ := Checked.bind_eq_ok.1 hok
      cases judgment with
      | fails why => cases Checked.pure_eq_ok.1 hok
      | holds =>
        obtain ⟨hclash, hidle, hstore⟩ := h.of_checkImplied hg
        exact List.forall_mem_cons.2 ⟨.inr hclash, hstore ▸ ih hidle hok⟩

/-- A clause that is accepted for its resolvents can be had for its first literal: a valuation of the
    live clauses satisfies it, or does so when that literal is made true, and still satisfies the live
    clauses then. -/
theorem checkResolved_repair (n : Nat) (e : Engine) (he : e.Reached n) (p : Literal) (c : Clause)
    (evidence : Bool) (f : Engine) (hf : e.checkResolved (p :: c) evidence = .ok (f, .holds))
    (v : Valuation) (hv : v.Models e.store.clauses) :
    v.Satisfies (p :: c) ∨
      ((v.make p).Satisfies (p :: c) ∧ (v.make p).Models e.store.clauses) := by
  by_cases hc : v.Satisfies (p :: c)
  · exact .inl hc
  right
  obtain ⟨xs, hxs, hf⟩ := Checked.bind_eq_ok.1 hf
  obtain ⟨_, rfl⟩ := Store.scanned_eq_ok.1 (he.idle.1.candidates p ▸ hxs)
  have hresolved : ∀ d ∈ e.store.clauses, -p ∈ d → (Clause.resolve (p :: c) p d).isTautology = true ∨
      v.Satisfies (Clause.resolve (p :: c) p d) := by
    intro d hd hp
    obtain ⟨id, hid⟩ := Store.mem_clauses.1 hd
    have hcandidate : (id, d) ∈ e.store.liveClauses.filter fun x => x.2.contains (-p) :=
      List.mem_filter.2 ⟨hid, by simpa using hp⟩
    exact (he.idle.1.of_checkResolvents hf _ hcandidate).imp_right (Valuation.satisfies_of_clash hv)
  have hmodels := Valuation.models_make hv hc List.mem_cons_self hresolved
  exact List.forall_mem_cons.1 hmodels

/-- One resolvent with these clauses on 1 is a tautology, and one clause has both literals of 1. -/
def resolvableHistory : List Operation :=
  [.add [⟨1, true⟩, ⟨2, true⟩] false, .add [⟨1, true⟩, ⟨3, false⟩] false,
    .add [⟨1, true⟩, ⟨1, false⟩, ⟨3, false⟩] false, .add [⟨2, false⟩, ⟨3, false⟩] false]

/-- Only 3 is true at first, and then 1 has to be. -/
theorem checkResolved_repair_first :
    ∃ e replies f, (empty 3).performAll resolvableHistory = .ok (e, replies) ∧
      e.checkResolved [⟨1, false⟩, ⟨2, false⟩, ⟨1, false⟩] true = .ok (f, .holds) ∧
      Valuation.Models (· == 3) e.store.clauses ∧
      ¬ Valuation.Satisfies (· == 3) [⟨1, false⟩, ⟨2, false⟩, ⟨1, false⟩] ∧
      (Valuation.make (· == 3) ⟨1, false⟩).Models e.store.clauses := by
  have hrun : (do
      let x ← (empty 3).performAll resolvableHistory
      let y ← x.1.checkResolved [⟨1, false⟩, ⟨2, false⟩, ⟨1, false⟩] true
      return (x.1.store.clauses, y.2)) =
      .ok ([[⟨1, true⟩, ⟨2, true⟩], [⟨1, true⟩, ⟨3, false⟩], [⟨1, true⟩, ⟨1, false⟩, ⟨3, false⟩],
        [⟨2, false⟩, ⟨3, false⟩]], .holds) := by decide +kernel
  obtain ⟨⟨e, replies⟩, he, hrun⟩ := Checked.bind_eq_ok.1 hrun
  obtain ⟨⟨f, judgment⟩, hf, hrun⟩ := Checked.bind_eq_ok.1 hrun
  obtain ⟨hclauses, rfl⟩ : e.store.clauses = _ ∧ judgment = _ := by
    simpa using Checked.pure_eq_ok.1 hrun
  have hmodels : Valuation.Models (· == 3) e.store.clauses := by
    rw [hclauses]
    simp [Valuation.Models, Valuation.Satisfies, Valuation.Holds]
  have hfalse : ¬ Valuation.Satisfies (· == 3) [⟨1, false⟩, ⟨2, false⟩, ⟨1, false⟩] := by
    simp [Valuation.Satisfies, Valuation.Holds]
  have hrepair := checkResolved_repair 3 e ⟨resolvableHistory, replies, by decide, he⟩ ⟨1, false⟩
    [⟨2, false⟩, ⟨1, false⟩] true f hf (· == 3) hmodels
  exact ⟨e, replies, f, he, hf, hmodels, hfalse, (hrepair.resolve_left hfalse).2⟩

end ClausalProof.Engine
