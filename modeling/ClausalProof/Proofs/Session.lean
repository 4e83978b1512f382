import ClausalProof.Proofs.Engine.Redundancy
import ClausalProof.Proofs.Replay

set_option autoImplicit false

/-!
What a session does, step by step. A deletion always succeeds; an addition is accepted, rejected
with the evidence of the plain checker, or finds no identifier left. A run is the longest prefix of
its proof that the session accepts (`Accepts`) and a reason to go no further (`Halts`).
-/
namespace ClausalProof

namespace Verdict

/-- A verdict that says nothing but its outcome. -/
def bare (o : Outcome) : Verdict := ⟨o, none, none, none, none⟩

/-- A verdict as it is shown: nothing but its outcome if no evidence is asked for. -/
def shown (evidence : Bool) (v : Verdict) : Verdict := if evidence then v else bare v.outcome

theorem outcome_shown (evidence : Bool) (v : Verdict) : (v.shown evidence).outcome = v.outcome := by
  cases evidence <;> rfl

theorem shown_valid (evidence : Bool) : valid.shown evidence = valid := by
  cases evidence <;> rfl

theorem stepsBefore_succ {p : Proof} {n : Nat} (h : n ≤ p.length) :
    stepsBefore p (some (n + 1)) = .ok n := by
  simp [stepsBefore, require, h, bind, Except.bind, pure, Except.pure]

theorem rejected_step (evidence : Bool) (q r : Proof) (rup : Option RupFailure)
    (rat : Option RatFailure) :
    rejected evidence (q ++ r) (some (q.length + 1)) rup rat =
      .ok (shown evidence ⟨.invalid, some (q.length + 1), some (Proof.additions q), rup, rat⟩) := by
  cases evidence with
  | false => rfl
  | true =>
    rw [rejected, if_pos rfl, stepsBefore_succ (by simp)]
    simp [shown, bind, Except.bind, pure, Except.pure]

theorem rejected_end (evidence : Bool) (p : Proof) :
    rejected evidence p none none none =
      .ok (shown evidence ⟨.invalid, none, some (Proof.additions p), none, none⟩) := by
  cases evidence <;> simp [rejected, shown, stepsBefore, bare, invalid, bind, Except.bind, pure,
    Except.pure]

end Verdict

/-- The literals of a proof are valid and of variables up to `n`. -/
def Proof.Within (p : Proof) (n : Nat) : Prop :=
  ∀ step ∈ p, ∀ l ∈ step.literals, l.isValid = true ∧ l.var ≤ n

theorem Proof.Within.head {step : Step} {p : Proof} {n : Nat} (h : Within (step :: p) n) :
    ∀ l ∈ step.literals, l.isValid = true ∧ l.var ≤ n := h step List.mem_cons_self

theorem Proof.Within.tail {step : Step} {p : Proof} {n : Nat} (h : Within (step :: p) n) :
    p.Within n := fun s hs => h s (List.mem_cons_of_mem _ hs)

namespace Session

/-- What the check of a step leaves alone. -/
structure Keeps (s t : Session) : Prop where
  idle : t.engine.Idle
  flags : t.flags = s.flags
  proof : t.proof = s.proof
  maxVar : t.engine.maxVar = s.engine.maxVar

theorem Keeps.trans {s t u : Session} (h : Keeps s t) (k : Keeps t u) : Keeps s u :=
  ⟨k.idle, k.flags.trans h.flags, k.proof.trans h.proof, k.maxVar.trans h.maxVar⟩

theorem delete_keeps {s : Session} (h : s.engine.Idle) (c : Clause) :
    ∃ t, s.delete c = .ok t ∧ Keeps s t ∧ s.engine.store.apply (.delete c) = .ok t.engine.store := by
  rcases h.delete c with ⟨he, hstore, _⟩ | ⟨f, older, id, d, newer, he, hf, hmax, hstore, hwithout⟩
  · simp only [Session.delete, Store.apply, he, hstore, bind, Except.bind]
    exact ⟨_, rfl, ⟨h, rfl, rfl, rfl⟩, rfl⟩
  · simp only [Session.delete, Store.apply, he, hstore, hwithout.kept, bind, Except.bind]
    exact ⟨_, rfl, ⟨hf, rfl, rfl, hmax⟩, rfl⟩

theorem accept_cases {s : Session} {c : Clause} (event : Nat → Clause → Event) (h : s.engine.Idle)
    (hc : ∀ l ∈ c, l.isValid = true ∧ l.var ≤ s.engine.maxVar) :
    (∃ t, s.accept c event = .ok t ∧ Keeps s t ∧
      s.engine.store.apply (.add c) = .ok t.engine.store) ∨
    (maxIdentifier < s.engine.store.size ∧ s.accept c event = .error .identifierRange ∧
      s.engine.store.apply (.add c) = .error .identifierRange) := by
  by_cases hs : s.engine.store.size ≤ maxIdentifier
  · obtain ⟨f, hf, hidle, hmax, hstore, hclause⟩ := h.add true hc hs
    left
    simp only [Session.accept, Store.apply, hf, hstore, hclause, bind, Except.bind]
    exact ⟨_, rfl, ⟨hidle, rfl, rfl, hmax⟩, rfl⟩
  · have hs : maxIdentifier < s.engine.store.size := by omega
    have hstore := Store.add_overflow c true hs
    right
    simp only [Session.accept, Store.apply, h.add_overflow true hc hs, hstore, bind, Except.bind]
    exact ⟨hs, trivial, trivial⟩

/-- The rejection with the evidence of the plain checker, or with none. -/
def Rejection.of (evidence : Bool) (rup : RupFailure) (rat : Option RatFailure) : Rejection :=
  if evidence then ⟨some rup, rat⟩ else ⟨none, none⟩

/-- The session with evidence asked for, or not. -/
def asking (s : Session) (evidence : Bool) : Session :=
  { s with flags := { s.flags with evidence := evidence } }

theorem asking_of_flags {s t : Session} (h : t.flags = s.flags) : t.asking s.flags.evidence = t := by
  rw [← h]
  rfl

theorem accept_asking (s : Session) (c : Clause) (event : Nat → Clause → Event) (evidence : Bool) :
    (s.asking evidence).accept c event = (s.accept c event).map (·.asking evidence) := by
  simp only [accept, asking, bind, Except.bind]
  cases s.engine.add c true with
  | error fault => rfl
  | ok added =>
    dsimp only
    cases added.2.store.clause added.1 <;> rfl

/-- The checks of an addition say what the plain checker says, and change no clause. -/
theorem introduce_eq {s : Session} {c : Clause} (h : s.engine.Idle)
    (hc : ∀ l ∈ c, l.isValid = true ∧ l.var ≤ s.engine.maxVar)
    (hs : s.engine.store.size ≤ maxIdentifier) :
    ∃ f, f.Idle ∧ f.store = s.engine.store ∧ f.maxVar = s.engine.maxVar ∧
      ((∃ statistics event, Plain.objection? s.engine.store.clauses c = none ∧ ∀ evidence,
        (s.asking evidence).introduce c =
          (({ s with engine := f, statistics := statistics }.asking evidence).accept c event).map
            fun t => (t, none)) ∨
      ∃ rup rat, Plain.objection? s.engine.store.clauses c = some (rup, rat) ∧ ∀ evidence,
        (s.asking evidence).introduce c =
          .ok (({ s with engine := f }.record (.rejected c)).asking evidence,
            some (.of evidence rup rat))) := by
  obtain ⟨e, he, hei, hes, hem⟩ := h.checkImplied hc
  simp only [Engine.impliedAnswer_of_le hs, Except.map] at he
  cases hrest : Plain.rest? s.engine.store.clauses c with
  | none =>
    rw [hrest] at he
    refine ⟨e, hei, hes, hem, .inl ⟨{ s.statistics with implied := s.statistics.implied + 1 }, .implied,
      by rw [Plain.objection?, hrest], fun evidence => ?_⟩⟩
    simp only [Session.introduce, asking, he]
    rfl
  | some U =>
    rw [hrest] at he
    cases c with
    | nil =>
      refine ⟨e, hei, hes, hem, .inr ⟨⟨[], U⟩, none, by rw [Plain.objection?, hrest], fun evidence => ?_⟩⟩
      simp only [Session.introduce, asking, he]
      cases evidence <;> rfl
    | cons p c =>
      obtain ⟨f, hf, hfi, hfs, hfm⟩ := hei.checkResolved (hem.symm ▸ hc)
      simp only [hes, Store.scanned_of_le hs] at hf
      refine ⟨f, hfi, hfs.trans hes, hfm.trans hem, ?_⟩
      cases hfound : Plain.unresolved? s.engine.store.clauses (p :: c) p with
      | none =>
        rw [hfound] at hf
        refine .inl ⟨{ s.statistics with resolved := s.statistics.resolved + 1 }, .resolved,
          by simp [Plain.objection?, hrest, hfound], fun evidence => ?_⟩
        simp only [Session.introduce, asking, he, Engine.impliedJudgment, hf, bind, Except.bind]
        rfl
      | some found =>
        obtain ⟨d, V⟩ := found
        rw [hfound] at hf
        refine .inr ⟨⟨p :: c, U⟩, some ⟨p :: c, d, ⟨p :: c, V⟩⟩,
          by simp [Plain.objection?, hrest, hfound], fun evidence => ?_⟩
        simp only [Session.introduce, asking, he, Engine.impliedJudgment, hf, bind, Except.bind]
        cases evidence <;> rfl

/-- An addition is rejected if the plain checker objects and otherwise accepted, whether or not
    evidence is asked for. -/
theorem introduce_asking {s : Session} {c : Clause} (h : s.engine.Idle)
    (hc : ∀ l ∈ c, l.isValid = true ∧ l.var ≤ s.engine.maxVar)
    (hs : s.engine.store.size ≤ maxIdentifier) :
    (∃ rup rat t, Plain.objection? s.engine.store.clauses c = some (rup, rat) ∧
      (∀ evidence, (s.asking evidence).introduce c =
        .ok (t.asking evidence, some (.of evidence rup rat))) ∧
      Keeps s t ∧ t.engine.store = s.engine.store ∧ t.statistics = s.statistics) ∨
    (∃ t, Plain.objection? s.engine.store.clauses c = none ∧
      (∀ evidence, (s.asking evidence).introduce c = .ok (t.asking evidence, none)) ∧
      Keeps s t ∧ s.engine.store.apply (.add c) = .ok t.engine.store) := by
  obtain ⟨f, hf, hstore, hmax, ⟨statistics, event, hobj, heq⟩ | ⟨rup, rat, hobj, heq⟩⟩ :=
    introduce_eq h hc hs
  · right
    rw [← hstore]
    rcases accept_cases (s := { s with engine := f, statistics := statistics }) event hf
        (hmax.symm ▸ hc) with ⟨t, ht, hkeeps, happly⟩ | ⟨hsize, _⟩
    · refine ⟨t, hstore ▸ hobj, fun evidence => ?_,
        ⟨hkeeps.idle, hkeeps.flags, hkeeps.proof, hkeeps.maxVar.trans hmax⟩, happly⟩
      rw [heq, accept_asking, ht]
      rfl
    · exact absurd (hstore ▸ hs) (Nat.not_le_of_lt hsize)
  · exact .inl ⟨rup, rat, { s with engine := f }.record (.rejected c), hobj, heq,
      ⟨hf, rfl, rfl, hmax⟩, hstore, rfl⟩

/-- Without an identifier left every addition is a fault, but the rejection of the empty clause without
    evidence: the clauses need not be scanned for it. -/
theorem introduce_full {s : Session} {c : Clause} (h : s.engine.Idle)
    (hc : ∀ l ∈ c, l.isValid = true ∧ l.var ≤ s.engine.maxVar)
    (hs : maxIdentifier < s.engine.store.size) (evidence : Bool) :
    ((s.asking evidence).introduce c = .error .identifierRange ∧
      ∀ x, Plain.objection? s.engine.store.clauses c = some x → ¬ (c = [] ∧ evidence = false)) ∨
    ∃ rup t, evidence = false ∧ c = [] ∧ Plain.objection? s.engine.store.clauses c = some (rup, none) ∧
      (s.asking evidence).introduce c = .ok (t.asking evidence, some (.of evidence rup none)) ∧
      Keeps s t ∧ t.engine.store = s.engine.store ∧ t.statistics = s.statistics := by
  obtain ⟨e, he, hei, hes, hem⟩ := h.checkImplied hc
  cases hrest : Plain.rest? s.engine.store.clauses c with
  | none =>
    refine .inl ⟨?_, fun x hx => by rw [Plain.objection?, hrest] at hx; cases hx⟩
    have hadd := hei.add_overflow true (hem.symm ▸ hc) (hes.symm ▸ hs)
    simp [Session.introduce, asking, he, hrest, Engine.impliedAnswer, accept, hadd, bind,
      Except.bind, Except.map]
  | some U =>
    cases evidence with
    | true =>
      refine .inl ⟨?_, fun _ _ hnil => by cases hnil.2⟩
      simp [Session.introduce, asking, he, hrest, Engine.impliedAnswer, Store.scanned_of_lt hs, bind,
        Except.bind, Except.map]
    | false =>
      cases c with
      | nil =>
        right
        refine ⟨⟨[], U⟩, { s with engine := e }.record (.rejected []), rfl, rfl,
          by rw [Plain.objection?, hrest], ?_, ⟨hei, rfl, rfl, hem⟩, hes, rfl⟩
        simp only [Session.introduce, asking, he, hrest]
        rfl
      | cons p c =>
        refine .inl ⟨?_, fun _ _ hnil => by cases hnil.1⟩
        obtain ⟨f, hf, _⟩ := hei.checkResolved (hem.symm ▸ hc)
        simp [Session.introduce, asking, he, hrest, Engine.impliedAnswer, hf, hes,
          Store.scanned_of_lt hs, bind, Except.bind, Except.map]

theorem introduce_cases {s : Session} {c : Clause} (h : s.engine.Idle)
    (hc : ∀ l ∈ c, l.isValid = true ∧ l.var ≤ s.engine.maxVar) :
    (∃ rup rat t, Plain.objection? s.engine.store.clauses c = some (rup, rat) ∧
      s.introduce c = .ok (t, some (.of s.flags.evidence rup rat)) ∧ Keeps s t ∧
      t.engine.store = s.engine.store ∧ t.statistics = s.statistics) ∨
    (∃ t, Plain.objection? s.engine.store.clauses c = none ∧ s.introduce c = .ok (t, none) ∧
      Keeps s t ∧ s.engine.store.apply (.add c) = .ok t.engine.store) ∨
    (maxIdentifier < s.engine.store.size ∧ s.introduce c = .error .identifierRange ∧
      s.engine.store.apply (.add c) = .error .identifierRange) := by
  by_cases hs : s.engine.store.size ≤ maxIdentifier
  · rcases introduce_asking h hc hs with
      ⟨rup, rat, t, hobj, hall, hkeeps, hstore⟩ | ⟨t, hobj, hall, hkeeps, happly⟩
    · have hown := hall s.flags.evidence
      rw [asking_of_flags rfl, asking_of_flags hkeeps.flags] at hown
      exact .inl ⟨rup, rat, t, hobj, hown, hkeeps, hstore⟩
    · have hown := hall s.flags.evidence
      rw [asking_of_flags rfl, asking_of_flags hkeeps.flags] at hown
      exact .inr (.inl ⟨t, hobj, hown, hkeeps, happly⟩)
  · have hlt := Nat.lt_of_not_le hs
    rcases introduce_full h hc hlt s.flags.evidence with
      ⟨hown, _⟩ | ⟨rup, t, _, _, hobj, hown, hkeeps, hstore⟩
    · rw [asking_of_flags rfl] at hown
      refine .inr (.inr ⟨hlt, hown, ?_⟩)
      rw [Store.apply, Store.add_overflow c true hlt]
      rfl
    · rw [asking_of_flags rfl, asking_of_flags hkeeps.flags] at hown
      exact .inl ⟨rup, none, t, hobj, hown, hkeeps, hstore⟩

/-- A clause is rejected without an identifier left only if the clauses need not be scanned for it. -/
theorem size_le_of_rejected {t u : Session} {c : Clause} {why : Rejection} (ht : t.engine.Idle)
    (hc : ∀ l ∈ c, l.isValid = true ∧ l.var ≤ t.engine.maxVar) (hu : t.introduce c = .ok (u, some why))
    (hscan : ¬ (c = [] ∧ t.flags.evidence = false)) : t.engine.store.size ≤ maxIdentifier := by
  by_contra hfull
  rcases introduce_full ht hc (Nat.lt_of_not_le hfull) t.flags.evidence with
    ⟨herror, _⟩ | ⟨_, _, hevidence, hnil, _⟩
  · rw [asking_of_flags rfl] at herror
    cases herror.symm.trans hu
  · exact hscan ⟨hnil, hevidence⟩

/-- A rejected clause leaves no trace in the store and the counters. -/
theorem introduce_rejected {s t : Session} {c : Clause} {why : Rejection}
    (h : s.introduce c = .ok (t, some why)) (hs : s.engine.Idle)
    (hc : ∀ l ∈ c, l.isValid = true ∧ l.var ≤ s.engine.maxVar) :
    Keeps s t ∧ t.engine.store = s.engine.store ∧ t.statistics = s.statistics := by
  rcases introduce_cases hs hc with ⟨_, _, u, _, hu, hrest⟩ | ⟨_, _, hu, _⟩ | ⟨_, hu, _⟩
  · obtain ⟨rfl, _⟩ := Prod.mk.inj (Except.ok.inj (hu.symm.trans h))
    exact hrest
  · cases hu.symm.trans h
  · cases hu.symm.trans h

/-- The session `s` accepts a step and becomes `t`. -/
def Takes (s : Session) : Step → Session → Prop
  | .delete c, t => s.delete c = .ok t
  | .add c, t => s.introduce c = .ok (t, none)

theorem Takes.keeps {s t : Session} {step : Step} (h : s.Takes step t) (hs : s.engine.Idle)
    (hc : ∀ l ∈ step.literals, l.isValid = true ∧ l.var ≤ s.engine.maxVar) :
    Keeps s t ∧ s.engine.store.apply step = .ok t.engine.store := by
  cases step with
  | delete c =>
    obtain ⟨u, hu, hrest⟩ := delete_keeps hs c
    obtain rfl : u = t := Except.ok.inj (hu.symm.trans h)
    exact hrest
  | add c =>
    rcases introduce_cases hs hc with ⟨_, _, _, _, hu, _⟩ | ⟨u, _, hu, hrest⟩ | ⟨_, hu, _⟩
    · cases hu.symm.trans h
    · cases hu.symm.trans h
      exact hrest
    · cases hu.symm.trans h

theorem Takes.objection? {s t : Session} {c : Clause} (h : s.Takes (.add c) t) (hs : s.engine.Idle)
    (hc : ∀ l ∈ c, l.isValid = true ∧ l.var ≤ s.engine.maxVar) :
    Plain.objection? s.engine.store.clauses c = none := by
  rcases introduce_cases hs hc with ⟨_, _, _, _, hu, _⟩ | ⟨_, hobj, _⟩ | ⟨_, hu, _⟩
  · cases hu.symm.trans h
  · exact hobj
  · cases hu.symm.trans h

theorem advance_accepted {s t : Session} {c : Clause} (h : s.introduce c = .ok (t, none)) (i : Nat)
    (r : Proof) : s.advance i (.add c :: r) =
      if c.isEmpty && t.flags.mode == .full then .ok ({ t with phase := .doneValid }, .valid)
      else t.advance (i + 1) r := by
  rw [Session.advance, h]
  rfl

/-- A run goes on after a step that is taken and does not complete the proof, and so does the plain
    checker. -/
theorem Takes.advance {s t : Session} {step : Step} (h : s.Takes step t) (hs : s.engine.Idle)
    (hc : ∀ l ∈ step.literals, l.isValid = true ∧ l.var ≤ s.engine.maxVar)
    (hgo : s.flags.mode = .full → step ≠ .add []) (accepted : List Clause) (i : Nat) (r : Proof) :
    s.advance i (step :: r) = t.advance (i + 1) r ∧
    Plain.advance s.flags.mode s.engine.store.clauses accepted i (step :: r) =
      Plain.advance t.flags.mode t.engine.store.clauses (accepted ++ step.added?.toList) (i + 1) r := by
  obtain ⟨hkeeps, happly⟩ := h.keeps hs hc
  obtain ⟨_, hclauses, _⟩ := hs.indexed.apply happly
  rw [hclauses, hkeeps.flags]
  cases step with
  | delete c =>
    refine ⟨?_, by simp [Plain.advance, Plain.apply, Step.added?]⟩
    rw [Session.advance, show s.delete c = .ok t from h]
    rfl
  | add c =>
    have hend : ¬ (c = [] ∧ s.flags.mode = .full) := fun hend => hgo hend.2 (hend.1 ▸ rfl)
    have hend' : (c.isEmpty && t.flags.mode == .full) = false := by
      rw [hkeeps.flags]
      simpa using hend
    constructor
    · rw [advance_accepted h, hend']
      rfl
    · rw [Plain.advance, h.objection? hs hc]
      simp only [if_neg hend]
      rfl

/-- The session `s` accepts the steps of a proof, one after another, and becomes `t`. -/
inductive Accepts : Session → Proof → Session → Prop where
  | done (s : Session) : Accepts s [] s
  | next {s t u : Session} {step : Step} {q : Proof} :
      s.Takes step t → Accepts t q u → Accepts s (step :: q) u

section

variable {s t u : Session} {q r : Proof}

theorem Accepts.append (h : Accepts s q t) (k : Accepts t r u) : Accepts s (q ++ r) u := by
  induction h with
  | done s => exact k
  | next ht _ ih => exact .next ht (ih k)

theorem Accepts.of_append (h : Accepts s (q ++ r) u) : ∃ t, Accepts s q t ∧ Accepts t r u := by
  induction q generalizing s with
  | nil => exact ⟨s, .done s, h⟩
  | cons step q ih =>
    cases h with
    | next ht h =>
      obtain ⟨t, hq, hr⟩ := ih h
      exact ⟨t, .next ht hq, hr⟩

/-- An accepted prefix leaves a session whose clauses are those of the prefix, unchecked. -/
theorem Accepts.keeps (h : Accepts s q t) (hs : s.engine.Idle) (hq : q.Within s.engine.maxVar) :
    Keeps s t ∧ s.engine.store.applyAll q = .ok t.engine.store := by
  induction h with
  | done s => exact ⟨⟨hs, rfl, rfl, rfl⟩, rfl⟩
  | @next s t u step q ht _ ih =>
    obtain ⟨hkeeps, happly⟩ := ht.keeps hs hq.head
    obtain ⟨hrest, hall⟩ := ih hkeeps.idle (hkeeps.maxVar.symm ▸ hq.tail)
    refine ⟨hkeeps.trans hrest, ?_⟩
    rw [Store.applyAll, happly]
    exact hall

theorem Accepts.advance (h : Accepts s q t) (hs : s.engine.Idle) (hq : q.Within s.engine.maxVar)
    (hfree : s.flags.mode = .full → Step.add [] ∉ q) (accepted : List Clause) (i : Nat) (r : Proof) :
    s.advance i (q ++ r) = t.advance (i + q.length) r ∧
    Plain.advance s.flags.mode s.engine.store.clauses accepted i (q ++ r) =
      Plain.advance t.flags.mode t.engine.store.clauses (accepted ++ Proof.additions q)
        (i + q.length) r := by
  induction h generalizing accepted i with
  | done s => simp [Proof.additions]
  | @next s t u step q ht _ ih =>
    obtain ⟨hkeeps, _⟩ := ht.keeps hs hq.head
    obtain ⟨hone, hplain⟩ := ht.advance hs hq.head
      (fun hm he => hfree hm (he ▸ List.mem_cons_self)) accepted i (q ++ r)
    obtain ⟨hrest, hplains⟩ := ih hkeeps.idle (hkeeps.maxVar.symm ▸ hq.tail)
      (fun hm hmem => hfree (hkeeps.flags ▸ hm) (List.mem_cons_of_mem _ hmem))
      (accepted ++ step.added?.toList) (i + 1)
    have hi : i + (step :: q).length = i + 1 + q.length := by
      rw [List.length_cons]
      omega
    rw [hi, List.cons_append, hone, hrest, hplain, hplains, Proof.additions_cons, List.append_assoc]
    exact ⟨rfl, rfl⟩

end

/-- Why a run goes no further than the session `t`, with some steps left. -/
inductive Halts (t : Session) : Proof → Prop where
  | finished : Halts t []
  | rejected {c : Clause} {r : Proof} {rup : RupFailure} {rat : Option RatFailure} {u : Session} :
      Plain.objection? t.engine.store.clauses c = some (rup, rat) →
      t.introduce c = .ok (u, some (.of t.flags.evidence rup rat)) → Halts t (.add c :: r)
  | completed {r : Proof} {u : Session} :
      t.flags.mode = .full → t.introduce [] = .ok (u, none) → Halts t (.add [] :: r)
  | exhausted {c : Clause} {r : Proof} : maxIdentifier < t.engine.store.size →
      t.introduce c = .error .identifierRange → Halts t (.add c :: r)

theorem exists_halts {s : Session} {p : Proof} (hs : s.engine.Idle) (hp : p.Within s.engine.maxVar) :
    ∃ q r t, p = q ++ r ∧ Accepts s q t ∧ (s.flags.mode = .full → Step.add [] ∉ q) ∧ Halts t r := by
  induction p generalizing s with
  | nil => exact ⟨[], [], s, rfl, .done s, by simp, .finished⟩
  | cons step p ih =>
    cases step with
    | delete c =>
      obtain ⟨t, ht, hkeeps, _⟩ := delete_keeps hs c
      obtain ⟨q, r, u, rfl, hq, hfree, hu⟩ := ih hkeeps.idle (hkeeps.maxVar.symm ▸ hp.tail)
      refine ⟨.delete c :: q, r, u, rfl, .next ht hq, ?_, hu⟩
      intro hm
      simpa using hfree (hkeeps.flags.symm ▸ hm)
    | add c =>
      rcases introduce_cases hs hp.head with
        ⟨rup, rat, t, hobj, ht, _⟩ | ⟨t, hobj, ht, hkeeps, _⟩ | ⟨hsize, herror, _⟩
      · exact ⟨[], _, s, rfl, .done s, by simp, .rejected hobj ht⟩
      · by_cases hend : c = [] ∧ s.flags.mode = .full
        · obtain ⟨rfl, hm⟩ := hend
          exact ⟨[], _, s, rfl, .done s, by simp, .completed hm ht⟩
        · obtain ⟨q, r, u, rfl, hq, hfree, hu⟩ := ih hkeeps.idle (hkeeps.maxVar.symm ▸ hp.tail)
          refine ⟨.add c :: q, r, u, rfl, .next ht hq, ?_, hu⟩
          intro hm hmem
          rcases List.mem_cons.1 hmem with hc | hmem
          · exact hend ⟨(Step.add.inj hc).symm, hm⟩
          · exact hfree (hkeeps.flags.symm ▸ hm) hmem
      · exact ⟨[], _, s, rfl, .done s, by simp, .exhausted hsize herror⟩

section

variable {t u : Session} {c : Clause} {q r : Proof}

theorem advance_finished (t : Session) (cs : List Clause) (i : Nat) :
    ∃ u, t.advance i [] = .ok (u,
        (Plain.advance t.flags.mode cs (Proof.additions t.proof) i []).shown t.flags.evidence) ∧
      u.engine = t.engine := by
  cases hm : t.flags.mode with
  | derivation =>
    refine ⟨{ t with phase := .doneValid }, ?_, rfl⟩
    simp only [Session.advance, finish, hm, Plain.advance, Verdict.shown_valid]
  | full =>
    refine ⟨{ t with phase := .doneInvalid }.record .noEmptyClause, ?_, rfl⟩
    simp only [Session.advance, finish, hm, Verdict.rejected_end]
    rfl

theorem advance_of_introduce {rup : RupFailure} {rat : Option RatFailure}
    (hu : t.introduce c = .ok (u, some (.of t.flags.evidence rup rat))) (hkeeps : Keeps t u)
    (hproof : t.proof = q ++ r) (rest : Proof) :
    t.advance (q.length + 1) (.add c :: rest) = .ok ({ u with phase := .doneInvalid },
      Verdict.shown t.flags.evidence
        ⟨.invalid, some (q.length + 1), some (Proof.additions q), some rup, rat⟩) := by
  simp only [Session.advance, hu, hkeeps.proof, hproof, hkeeps.flags, Verdict.rejected_step, bind,
    Except.bind]
  cases t.flags.evidence <;> rfl

theorem advance_rejected {rup : RupFailure} {rat : Option RatFailure} (ht : t.engine.Idle)
    (hc : ∀ l ∈ c, l.isValid = true ∧ l.var ≤ t.engine.maxVar)
    (hu : t.introduce c = .ok (u, some (.of t.flags.evidence rup rat)))
    (hproof : t.proof = q ++ r) (rest : Proof) :
    ∃ w, t.advance (q.length + 1) (.add c :: rest) = .ok (w, Verdict.shown t.flags.evidence
        ⟨.invalid, some (q.length + 1), some (Proof.additions q), some rup, rat⟩) ∧
      w.engine.store = t.engine.store := by
  obtain ⟨hkeeps, hstore, _⟩ := introduce_rejected hu ht hc
  exact ⟨{ u with phase := .doneInvalid }, advance_of_introduce hu hkeeps hproof rest, hstore⟩

theorem advance_completed (ht : t.engine.Idle) (hm : t.flags.mode = .full)
    (hu : t.introduce [] = .ok (u, none)) (i : Nat) (rest : Proof) :
    t.advance i (.add [] :: rest) = .ok ({ u with phase := .doneValid }, .valid) := by
  have htakes : t.Takes (.add []) u := hu
  obtain ⟨hkeeps, _⟩ := htakes.keeps ht (by simp [Step.literals])
  rw [advance_accepted hu, hkeeps.flags, hm]
  rfl

theorem advance_exhausted (h : t.introduce c = .error .identifierRange) (i : Nat) (rest : Proof) :
    t.advance i (.add c :: rest) = .error .identifierRange := by
  rw [Session.advance, h]
  rfl

/-- A run that halts gives the verdict of the plain checker, unless it has no identifier left. -/
theorem Halts.advance (h : t.Halts r) (ht : t.engine.Idle) (hr : r.Within t.engine.maxVar)
    (hproof : t.proof = q ++ r) :
    (∃ u, t.advance (q.length + 1) r = .ok (u, (Plain.advance t.flags.mode t.engine.store.clauses
      (Proof.additions q) (q.length + 1) r).shown t.flags.evidence)) ∨
    (t.advance (q.length + 1) r = .error .identifierRange ∧
      maxIdentifier + 1 < t.engine.store.size + (Proof.additions r).length) := by
  cases h with
  | finished =>
    obtain ⟨u, hu, _⟩ := advance_finished t t.engine.store.clauses (q.length + 1)
    rw [hproof, List.append_nil] at hu
    exact .inl ⟨u, hu⟩
  | @rejected c r rup rat _ hobj hw =>
    obtain ⟨u, hu, _⟩ := advance_rejected ht hr.head hw hproof r
    rw [Plain.advance, hobj]
    exact .inl ⟨u, hu⟩
  | @completed r u hm hu =>
    have hnone := Takes.objection? (c := []) hu ht (by simp)
    rw [Plain.advance, hnone, if_pos ⟨rfl, hm⟩, advance_completed ht hm hu, Verdict.shown_valid]
    exact .inl ⟨{ u with phase := .doneValid }, rfl⟩
  | @exhausted c r hsize herror =>
    refine .inr ⟨advance_exhausted herror _ _, ?_⟩
    rw [Proof.additions_cons]
    simp only [Step.added?, Option.toList_some, List.length_append, List.length_singleton]
    omega

/-- The end of a run that halts in the session `t`, with the steps of `q` behind it. -/
inductive Closes (t : Session) (q : Proof) : Proof → Session → Verdict → Prop where
  | derived : t.flags.mode = .derivation → Closes t q [] { t with phase := .doneValid } .valid
  | lacking : t.flags.mode = .full →
      Closes t q [] ({ t with phase := .doneInvalid }.record .noEmptyClause)
        (.shown t.flags.evidence ⟨.invalid, none, some (Proof.additions q), none, none⟩)
  | completed {r : Proof} {u : Session} : t.flags.mode = .full → t.Takes (.add []) u →
      Closes t q (.add [] :: r) { u with phase := .doneValid } .valid
  | rejected {c : Clause} {r : Proof} {rup : RupFailure} {rat : Option RatFailure} {u : Session} :
      Plain.objection? t.engine.store.clauses c = some (rup, rat) →
      t.introduce c = .ok (u, some (.of t.flags.evidence rup rat)) →
      u.engine.store = t.engine.store → u.statistics = t.statistics →
      Closes t q (.add c :: r) { u with phase := .doneInvalid } (.shown t.flags.evidence
        ⟨.invalid, some (q.length + 1), some (Proof.additions q), some rup, rat⟩)

theorem Halts.closes {v : Verdict} (h : t.Halts r) (ht : t.engine.Idle)
    (hr : r.Within t.engine.maxVar) (hproof : t.proof = q ++ r)
    (hrun : t.advance (q.length + 1) r = .ok (u, v)) : t.Closes q r u v := by
  cases h with
  | finished =>
    simp only [Session.advance, finish] at hrun
    cases hm : t.flags.mode with
    | derivation =>
      rw [hm] at hrun
      cases hrun
      exact .derived hm
    | full =>
      rw [hm, Verdict.rejected_end] at hrun
      cases hrun
      obtain rfl : t.proof = q := by rw [hproof, List.append_nil]
      exact .lacking hm
  | @rejected c r rup rat w hobj hw =>
    obtain ⟨hkeeps, hstore, hcount⟩ := introduce_rejected hw ht hr.head
    cases (advance_of_introduce hw hkeeps hproof r).symm.trans hrun
    exact .rejected hobj hw hstore hcount
  | @completed r w hm hw =>
    cases (advance_completed ht hm hw _ r).symm.trans hrun
    exact .completed hm hw
  | exhausted _ herror => cases (advance_exhausted herror _ _).symm.trans hrun

end

end Session
end ClausalProof
