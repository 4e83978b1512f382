import ClausalProof.Engine.Propagation
import ClausalProof.Verdict

/-!
Implication by unit propagation: a clause is implied if assuming the negation of its literals leads
to a conflict. A check leaves the engine as it found it, apart from the order of watch lists and the
watched positions.
-/

set_option autoImplicit false

namespace ClausalProof.Engine

/-- Assume the negation of every literal, in order. -/
def assume (e : Engine) : Clause → Checked (Engine × Progress)
  | [] => .ok (e, .quiet)
  | l :: c => do
    match ← e.assign (-l) .assumed with
    | (e, .conflict) => return (e, .conflict)
    | (e, .quiet) => e.assume c

/-- Assume the negation of a clause and propagate. The trail is left for inspection. -/
def refute (e : Engine) (c : Clause) : Checked (Engine × Progress) := do
  require e.trail.isEmpty .trailInUse
  if e.hasEmptyClause then return (e, .conflict)
  match ← e.assume c with
  | (e, .conflict) => return (e, .conflict)
  | (e, .quiet) =>
    match ← e.assignUnits e.units with
    | (e, .conflict) => return (e, .conflict)
    | (e, .quiet) => e.propagate

/-- Assume the negation of every literal that is not false yet. -/
def negateAll (t : Trail) : Clause → Checked Trail
  | [] => .ok t
  | l :: c => do
    if ← t.value (-l) then negateAll t c
    else negateAll (← t.push (-l) .assumed) c

/-- The literals that the negation of a clause makes true, in the order of a scan for the oldest
    unit clause. They are those of the trail that `refute` has left. -/
def chain (e : Engine) (c : Clause) : Checked (List Literal) := do
  let t ← negateAll (.empty e.maxVar) c
  let t ← t.saturate (← e.store.scan)
  require (t.size == e.trail.size) .chainLength
  return t.literals

/-- Undo the assignments of `f` that `e` does not have. -/
def restore (e f : Engine) : Checked Engine := do
  return { f with trail := ← f.trail.shrinkTo e.trail.size, processed := e.trail.size }

/-- Check that `c` is implied. Evidence of a failure names the clause `reported`. -/
def checkImplied (e : Engine) (c reported : Clause) (evidence : Bool) :
    Checked (Engine × Judgment RupFailure) := do
  match ← e.refute c with
  | (f, .conflict) => return (← e.restore f, .holds)
  | (f, .quiet) =>
    if evidence then
      let chain ← f.chain c
      return (← e.restore f, .fails (some ⟨reported, chain⟩))
    else return (← e.restore f, .fails none)

end ClausalProof.Engine
