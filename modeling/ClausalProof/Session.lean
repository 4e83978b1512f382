import ClausalProof.Redundancy.Resolved

/-!
A session checks one proof from front to back. An added clause must be implied or else resolved on
its first literal; a deletion is applied unchecked. The session stops at the first rejected step
and, when the empty clause is required, as soon as it has been added.
-/

set_option autoImplicit false

namespace ClausalProof

/-- What makes a proof acceptable. -/
inductive Mode where
  /-- Every added clause is redundant, and the empty clause is added. -/
  | full
  /-- Every added clause is redundant. -/
  | derivation
deriving DecidableEq, Repr

structure Flags where
  mode : Mode
  /-- Whether a rejection carries evidence. -/
  evidence : Bool
deriving DecidableEq, Repr

inductive Phase where
  | ready
  | processing
  | doneValid
  | doneInvalid
deriving DecidableEq, Repr

structure Statistics where
  premises : Nat
  steps : Nat
  implied : Nat
  resolved : Nat
  deletions : Nat
  /-- Deletions that matched no live clause. -/
  unmatched : Nat
deriving DecidableEq, Repr

/-- What happened to a step of the proof. -/
inductive Event where
  | implied (id : Nat) (stored : Clause)
  | resolved (id : Nat) (stored : Clause)
  | deleted (id : Nat) (stored : Clause)
  | unmatched (literals : Clause)
  | rejected (literals : Clause)
  | noEmptyClause
deriving DecidableEq, Repr

def Event.text : Event → String
  | .implied id c => "lemma RUP " ++ Store.clauseText id c
  | .resolved id c => "lemma RAT " ++ Store.clauseText id c
  | .deleted id c => "del " ++ Store.clauseText id c
  | .unmatched c => "c Warning: ignoring deletion of missing clause " ++ c.text
  | .rejected c => "rejected " ++ c.text
  | .noEmptyClause => "no empty clause"

structure Session where
  flags : Flags
  engine : Engine
  proof : Proof
  phase : Phase
  statistics : Statistics
  events : Array Event

namespace Session

/-- The largest variable of a formula and a proof. -/
def maxVar (f : Formula) (p : Proof) : Nat := max (Formula.maxVar f) (Proof.maxVar p)

/-- Load a formula. -/
def start (f : Formula) (p : Proof) (flags : Flags) : Checked Session := do
  let engine ← Engine.ofFormula (maxVar f p) f
  return ⟨flags, engine, p, .ready, ⟨f.length, p.length, 0, 0, 0, 0⟩, #[]⟩

def record (s : Session) (event : Event) : Session := { s with events := s.events.push event }

/-- Apply a deletion. -/
def delete (s : Session) (c : Clause) : Checked Session := do
  let (found, engine) ← s.engine.delete c
  let statistics := { s.statistics with deletions := s.statistics.deletions + 1 }
  match found with
  | some id =>
    let stored ← engine.store.clause id
    return { s with engine := engine, statistics := statistics }.record (.deleted id stored)
  | none =>
    let statistics := { statistics with unmatched := statistics.unmatched + 1 }
    return { s with engine := engine, statistics := statistics }.record (.unmatched c)

/-- The evidence of a failed introduction. -/
structure Rejection where
  rup : Option RupFailure
  rat : Option RatFailure
deriving DecidableEq, Repr

/-- Add a clause that has been found redundant. -/
def accept (s : Session) (c : Clause) (event : Nat → Clause → Event) : Checked Session := do
  let (id, engine) ← s.engine.add c true
  let stored ← engine.store.clause id
  return { s with engine := engine }.record (event id stored)

/-- Check a clause and add it if it is redundant. -/
def introduce (s : Session) (c : Clause) : Checked (Session × Option Rejection) := do
  match ← s.engine.checkImplied c c s.flags.evidence with
  | (engine, .holds) =>
    let statistics := { s.statistics with implied := s.statistics.implied + 1 }
    let s := { s with engine := engine, statistics := statistics }
    return (← s.accept c .implied, none)
  | (engine, .fails rup) =>
    match ← engine.checkResolved c s.flags.evidence with
    | (engine, .holds) =>
      let statistics := { s.statistics with resolved := s.statistics.resolved + 1 }
      let s := { s with engine := engine, statistics := statistics }
      return (← s.accept c .resolved, none)
    | (engine, .fails rat) =>
      return ({ s with engine := engine }.record (.rejected c), some ⟨rup, rat⟩)

/-- The end of a proof whose steps have all been accepted. -/
def finish (s : Session) : Checked (Session × Verdict) :=
  match s.flags.mode with
  | .derivation => .ok ({ s with phase := .doneValid }, .valid)
  | .full => do
    let verdict ← Verdict.rejected s.flags.evidence s.proof none none none
    return ({ s with phase := .doneInvalid }.record .noEmptyClause, verdict)

/-- Process the steps from number `i`, counted from 1. -/
def advance (s : Session) (i : Nat) : Proof → Checked (Session × Verdict)
  | [] => s.finish
  | .delete c :: p => do (← s.delete c).advance (i + 1) p
  | .add c :: p => do
    match ← s.introduce c with
    | (s, some rejection) =>
      let verdict ←
        Verdict.rejected s.flags.evidence s.proof (some i) rejection.rup rejection.rat
      return ({ s with phase := .doneInvalid }, verdict)
    | (s, none) =>
      if c.isEmpty && s.flags.mode == .full then
        return ({ s with phase := .doneValid }, .valid)
      else s.advance (i + 1) p

/-- Process the whole proof. A session runs once. -/
def run (s : Session) : Checked (Session × Verdict) := do
  require (s.phase == .ready) .notReady
  { s with phase := .processing }.advance 1 s.proof

end Session

/-- Check a proof for a formula. -/
def checkProof (f : Formula) (p : Proof) (flags : Flags) : Checked Verdict := do
  return (← (← Session.start f p flags).run).2

/-- Check a single clause against a formula, without evidence. -/
def isRedundant (f : Formula) (c : Clause) : Checked Bool := do
  let s ← Session.start f [.add c] ⟨.derivation, false⟩
  match ← s.engine.checkImplied c c false with
  | (_, .holds) => return true
  | (e, .fails _) =>
    let (_, judgment) ← e.checkResolved c false
    return judgment.isHolds

/-- Check each of some clauses on its own against a formula. -/
def areRedundant (f : Formula) : List Clause → Checked (List Bool)
  | [] => .ok []
  | c :: cs => do
    let b ← isRedundant f c
    return b :: (← areRedundant f cs)

end ClausalProof
