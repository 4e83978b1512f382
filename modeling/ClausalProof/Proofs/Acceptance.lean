import ClausalProof.Proofs.Refinement

set_option autoImplicit false

/-!
Proofs whose additions meet no objection of the plain checker, and how far a run gets with them. A
run needs an identifier for each clause of the formula and for each clause that it adds, and one more
to count the clauses before it rejects one; it returns exactly if there are as many.
-/
namespace ClausalProof

namespace Plain

/-- No addition meets an objection when it is its turn. -/
def Unopposed (cs : List Clause) : Proof → Prop
  | [] => True
  | .delete c :: p => Unopposed (delete cs c) p
  | .add c :: p => objection? cs c = none ∧ Unopposed (add cs c) p

/-- The number of identifiers that a run asks for, one for each clause that it adds. The clauses are
    counted when they are scanned before a rejection; the empty clause is rejected without a scan if
    there is no evidence to be found. -/
def demanded (flags : Flags) (cs : List Clause) : Proof → Nat
  | [] => 0
  | .delete c :: p => demanded flags (delete cs c) p
  | .add c :: p =>
    match objection? cs c with
    | some _ => if c = [] ∧ flags.evidence = false then 0 else 1
    | none => if c = [] ∧ flags.mode = .full then 1 else demanded flags (add cs c) p + 1

section

variable {cs : List Clause} {c : Clause}

theorem unresolved?_eq_none_iff {l : Literal} (hcs : ∀ d ∈ cs, d.Nodup) :
    unresolved? cs c l = none ↔ ∀ d ∈ cs, -l ∈ d →
      (Clause.resolve c l d).isTautology = true ∨ Clash cs (Clause.resolve c l d).opposites := by
  refine ⟨fun h d hd hl => clash_of_unresolved? hcs h hd hl, fun h => ?_⟩
  refine List.findSome?_eq_none_iff.2 fun d hd => ?_
  obtain ⟨hmem, hl⟩ := List.mem_filter.1 hd
  rw [unresolvedWith?]
  rcases h d hmem (by simpa using hl) with htaut | hclash
  · rw [if_pos htaut]
  · rw [(rest?_eq_none_iff hcs).2 hclash]
    exact ite_self none

/-- A clause is redundant if it is implied, or has a first literal all resolvents on which are
    tautologies or implied. -/
theorem objection?_eq_none_iff (hcs : ∀ d ∈ cs, d.Nodup) :
    objection? cs c = none ↔ Clash cs c.opposites ∨ ∃ l, c.head? = some l ∧ ∀ d ∈ cs, -l ∈ d →
      (Clause.resolve c l d).isTautology = true ∨ Clash cs (Clause.resolve c l d).opposites := by
  rw [← rest?_eq_none_iff hcs, objection?]
  cases rest? cs c with
  | none => simp
  | some U =>
    cases c with
    | nil => simp
    | cons l c => simp [← unresolved?_eq_none_iff hcs]

theorem objection?_of_clash (hcs : ∀ d ∈ cs, d.Nodup) (h : Clash cs c.opposites) :
    objection? cs c = none :=
  (objection?_eq_none_iff hcs).2 (.inl h)

end

variable {mode : Mode} {cs accepted : List Clause} {p q : Proof}

theorem unopposed_append :
    Unopposed cs (p ++ q) ↔ Unopposed cs p ∧ Unopposed (applyAll cs p) q := by
  induction p generalizing cs with
  | nil => simp [Unopposed, applyAll]
  | cons step p ih =>
    cases step with
    | delete c => exact ih
    | add c =>
      simp only [List.cons_append, Unopposed, ih, and_assoc]
      rfl

theorem Unopposed.advance_append (h : Unopposed cs q) (hfree : mode = .full → Step.add [] ∉ q)
    (i : Nat) (r : Proof) :
    advance mode cs accepted i (q ++ r) =
      advance mode (applyAll cs q) (accepted ++ Proof.additions q) (i + q.length) r := by
  induction q generalizing cs accepted i with
  | nil => simp [Proof.additions, applyAll]
  | cons step q ih =>
    have hfree' : mode = .full → Step.add [] ∉ q := fun hm hmem =>
      hfree hm (List.mem_cons_of_mem _ hmem)
    have hi : i + (step :: q).length = i + 1 + q.length := by
      rw [List.length_cons]
      omega
    rw [hi]
    cases step with
    | delete c => exact ih h hfree' (i + 1)
    | add c =>
      obtain ⟨hc, hrest⟩ := h
      have hgo : ¬ (c = [] ∧ mode = .full) := fun hend => hfree hend.2 (hend.1 ▸ List.mem_cons_self)
      rw [Proof.additions_cons, ← List.append_assoc]
      simp only [List.cons_append, advance, hc, if_neg hgo]
      exact ih hrest hfree' (i + 1)

theorem Unopposed.demanded_append (h : Unopposed cs q) (flags : Flags)
    (hfree : flags.mode = .full → Step.add [] ∉ q) (r : Proof) :
    demanded flags cs (q ++ r) =
      (Proof.additions q).length + demanded flags (applyAll cs q) r := by
  induction q generalizing cs with
  | nil => simp [Proof.additions, applyAll]
  | cons step q ih =>
    have hfree' : flags.mode = .full → Step.add [] ∉ q := fun hm hmem =>
      hfree hm (List.mem_cons_of_mem _ hmem)
    cases step with
    | delete c => exact ih h hfree'
    | add c =>
      obtain ⟨hc, hrest⟩ := h
      have hgo : ¬ (c = [] ∧ flags.mode = .full) :=
        fun hend => hfree hend.2 (hend.1 ▸ List.mem_cons_self)
      have hlen : (Proof.additions (.add c :: q)).length = (Proof.additions q).length + 1 := rfl
      have happly : applyAll cs (.add c :: q) = applyAll (add cs c) q := rfl
      simp only [List.cons_append, demanded, hc, if_neg hgo, ih hrest hfree', hlen, happly]
      omega

theorem Unopposed.advance_derivation (h : Unopposed cs p) (i : Nat) :
    advance .derivation cs accepted i p = .valid := by
  have hgo : Mode.derivation = .full → Step.add [] ∉ p := nofun
  rw [← List.append_nil p, h.advance_append hgo]
  rfl

/-- An unopposed full proof is accepted if it adds the empty clause, whatever comes behind it. -/
theorem Unopposed.advance_full (h : Unopposed cs p) (hmem : Step.add [] ∈ p) (i : Nat) (r : Proof) :
    advance .full cs accepted i (p ++ r) = .valid ∧
      ∀ evidence, demanded ⟨.full, evidence⟩ cs (p ++ r) ≤ (Proof.additions p).length := by
  obtain ⟨q, rest, rfl, hfree⟩ := List.eq_append_cons_of_mem hmem
  obtain ⟨hq, hc, _⟩ := unopposed_append.1 h
  rw [List.append_assoc, List.cons_append, hq.advance_append fun _ => hfree]
  refine ⟨by simp only [advance, hc, and_self, if_true], fun evidence => ?_⟩
  rw [hq.demanded_append _ fun _ => hfree, Proof.additions_append, Proof.additions_cons]
  simp only [demanded, hc, and_self, if_true, List.length_append, Step.added?, Option.toList_some,
    List.length_singleton]
  omega

theorem demanded_le (flags : Flags) (cs : List Clause) (p : Proof) :
    demanded flags cs p ≤ (Proof.additions p).length := by
  induction p generalizing cs with
  | nil => exact Nat.le_refl 0
  | cons step p ih =>
    cases step with
    | delete c => exact ih (delete cs c)
    | add c =>
      have hlen : (Proof.additions (.add c :: p)).length = (Proof.additions p).length + 1 := rfl
      have hrest := ih (add cs c)
      simp only [demanded]
      split <;> split <;> omega

end Plain

namespace Store

variable {s t : Store}

theorem Indexed.size_add_le {c : Clause} {derived : Bool} {id : Nat} (h : s.Indexed)
    (hadd : s.add c derived = .ok (id, t)) : t.size ≤ maxIdentifier + 1 := by
  rw [(h.of_add hadd).2.2]
  exact Nat.succ_le_succ (add_eq_ok hadd).2

theorem Indexed.size_apply_le {step : Step} (h : s.Indexed) (hs : s.size ≤ maxIdentifier + 1)
    (happly : s.apply step = .ok t) : t.size ≤ maxIdentifier + 1 := by
  cases step with
  | delete c => exact (h.apply happly).2.2 ▸ hs
  | add c =>
    obtain ⟨⟨id, u⟩, hadd, hu⟩ := Checked.bind_eq_ok.1 happly
    exact Checked.pure_eq_ok.1 hu ▸ h.size_add_le hadd

theorem Indexed.size_addAll_le {f : Formula} (h : s.Indexed) (hs : s.size ≤ maxIdentifier + 1)
    (hadd : s.addAll f = .ok t) : t.size ≤ maxIdentifier + 1 := by
  induction f generalizing s with
  | nil => exact Except.ok.inj hadd ▸ hs
  | cons c f ih =>
    obtain ⟨⟨id, u⟩, hu, hf⟩ := Checked.bind_eq_ok.1 hadd
    exact ih (h.of_add hu).1 (h.size_add_le hu) hf

theorem Indexed.size_applyAll_le {p : Proof} (h : s.Indexed) (hs : s.size ≤ maxIdentifier + 1)
    (happly : s.applyAll p = .ok t) : t.size ≤ maxIdentifier + 1 := by
  induction p generalizing s with
  | nil => exact Except.ok.inj happly ▸ hs
  | cons step p ih =>
    obtain ⟨u, hu, hp⟩ := Checked.bind_eq_ok.1 happly
    exact ih (h.apply hu).1 (h.size_apply_le hs hu) hp

/-- A store never has more clauses than there are identifiers. -/
theorem size_replay_le {f : Formula} {p : Proof} (h : replay f p = .ok t) :
    t.size ≤ maxIdentifier + 1 := by
  obtain ⟨u, hu, hp⟩ := Checked.bind_eq_ok.1 h
  have hule := indexed_empty.size_addAll_le (Nat.zero_le _) hu
  exact (indexed_empty.addAll hu).1.size_applyAll_le hule hp

end Store

namespace Session

variable {s t : Session} {q r : Proof}

theorem Accepts.unopposed (h : Accepts s q t) (hs : s.engine.Idle) (hq : q.Within s.engine.maxVar) :
    Plain.Unopposed s.engine.store.clauses q := by
  induction h with
  | done s => trivial
  | @next s t u step q ht _ ih =>
    obtain ⟨hkeeps, happly⟩ := ht.keeps hs hq.head
    have hrest := ih hkeeps.idle (hkeeps.maxVar.symm ▸ hq.tail)
    rw [(hs.indexed.apply happly).2.1] at hrest
    cases step with
    | delete c => exact hrest
    | add c => exact ⟨ht.objection? hs hq.head, hrest⟩

/-- A run that halts has all its identifiers, or else it returns nothing. -/
theorem Halts.advance_eq (h : t.Halts r) (ht : t.engine.Idle) (hr : r.Within t.engine.maxVar)
    (hproof : t.proof = q ++ r) (hsize : t.engine.store.size ≤ maxIdentifier + 1) :
    (t.engine.store.size + Plain.demanded t.flags t.engine.store.clauses r ≤ maxIdentifier + 1 ∧
      ∃ u, t.advance (q.length + 1) r = .ok (u, (Plain.advance t.flags.mode t.engine.store.clauses
        (Proof.additions q) (q.length + 1) r).shown t.flags.evidence)) ∨
    (maxIdentifier + 1 < t.engine.store.size + Plain.demanded t.flags t.engine.store.clauses r ∧
      t.advance (q.length + 1) r = .error .identifierRange) := by
  have hcases := h.advance ht hr hproof
  cases h with
  | finished =>
    refine .inl ⟨hsize, hcases.resolve_right ?_⟩
    rintro ⟨_, hlt⟩
    exact absurd hlt (Nat.not_lt.2 hsize)
  | @rejected c r rup rat w hobj hw =>
    obtain ⟨u, hu, _⟩ := advance_rejected ht hr.head hw hproof r
    refine .inl ⟨?_, hcases.resolve_right ?_⟩
    · simp only [Plain.demanded, hobj]
      split
      · exact hsize
      · rename_i hscan
        exact Nat.succ_le_succ (size_le_of_rejected ht hr.head hw hscan)
    · rintro ⟨herror, _⟩
      cases hu.symm.trans herror
  | @completed r u hm hu =>
    have htakes : t.Takes (.add []) u := hu
    obtain ⟨_, happly⟩ := htakes.keeps ht (by simp [Step.literals])
    have hle := ht.indexed.size_apply_le hsize happly
    have hnext := (ht.indexed.apply happly).2.2
    have hone : Plain.demanded t.flags t.engine.store.clauses (.add [] :: r) = 1 := by
      simp [Plain.demanded, htakes.objection? ht (by simp), hm]
    refine .inl ⟨?_, hcases.resolve_right ?_⟩
    · rw [hone]
      exact hnext ▸ hle
    · rintro ⟨herror, _⟩
      cases (advance_completed ht hm hu _ r).symm.trans herror
  | @exhausted c r hfull herror =>
    refine .inr ⟨?_, advance_exhausted herror _ _⟩
    have hpos : 0 < Plain.demanded t.flags t.engine.store.clauses (.add c :: r) := by
      rcases introduce_full (c := c) ht hr.head hfull t.flags.evidence with
        ⟨_, hscan⟩ | ⟨_, u, _, _, _, hu, _⟩
      · simp only [Plain.demanded]
        split
        · rename_i hobj
          rw [if_neg (hscan _ hobj)]
          exact Nat.one_pos
        · split <;> omega
      · rw [asking_of_flags rfl] at hu
        cases herror.symm.trans hu
    omega

end Session

/-- The verdict on a proof is that of the plain checker, and there is one exactly if there are
    identifiers for the clauses of the formula and those that the run asks for. -/
theorem checkProof_eq {f : Formula} {p : Proof} (hf : f.Valid) (hp : p.Valid) (flags : Flags) :
    checkProof f p flags =
      if f.length + Plain.demanded flags (f.map List.eraseDups) p ≤ maxIdentifier + 1 then
        .ok ((Plain.check f p flags.mode).shown flags.evidence)
      else .error .identifierRange := by
  rcases Session.start_cases (p := p) hf flags with ⟨s, hs, hready, hloaded⟩ | ⟨herror, _, hlt⟩
  · obtain ⟨q, r, t, rfl, hr⟩ := hloaded.reaches hready hp
    have hprefix := List.prefix_append q r
    have hflags : t.flags = flags := hr.flags.trans hloaded.flags
    have hunopposed := hr.accepts.unopposed hloaded.idle (hloaded.within_prefix hp hprefix)
    change Plain.Unopposed s.engine.store.clauses q at hunopposed
    rw [hloaded.clauses.1] at hunopposed
    have hfree := hr.free
    rw [hflags] at hfree
    have hsize := hr.size
    -- the run takes an identifier for each addition of `q`, and goes on from there as the session that halts does
    rw [hunopposed.demanded_append flags hfree, ← (Store.replay_clauses hr.replay).2]
    have hadvance := hr.halts.advance_eq hr.idle hr.rest hr.proof
      (Store.size_replay_le hr.replay)
    rw [hflags] at hadvance
    rw [checkProof, hs]
    simp only [bind, Except.bind, hr.run]
    rcases hadvance with ⟨hle, u, hu⟩ | ⟨hlt, herror⟩
    · have hplain := hr.plain
      rw [hflags] at hplain
      rw [if_pos (by omega), hu, hplain]
      rfl
    · rw [if_neg (by omega), herror]
  · rw [if_neg (by omega), checkProof, herror]
    rfl

/-- What the plain checker says is what a check says, if it says anything, and it does if there are
    identifiers for all clauses. -/
theorem check_of_plain {f : List (List Int)} {p : List NumberStep} {mode : Mode} {v : Verdict}
    (hf : ∀ vs ∈ f, ∀ v ∈ vs, Check.denotesLiteral v = true)
    (hp : ∀ s ∈ p, ∀ v ∈ Check.values s, Check.denotesLiteral v = true)
    (h : Plain.check (Check.formulaOf f) (Check.proofOf p) mode = v) (evidence : Bool) :
    (∀ r, check f p mode evidence = .ok r → r = .ok (v.shown evidence)) ∧
    (f.length + (Proof.additions (Check.proofOf p)).length ≤ maxIdentifier + 1 →
      check f p mode evidence = .ok (.ok (v.shown evidence))) := by
  subst h
  rcases check_cases hf hp mode evidence with hok | ⟨herror, hlt⟩
  · rw [hok]
    exact ⟨fun r hr => (Except.ok.inj hr).symm, fun _ => rfl⟩
  · rw [herror]
    refine ⟨fun r hr => (by cases hr), fun hle => ?_⟩
    omega

end ClausalProof
