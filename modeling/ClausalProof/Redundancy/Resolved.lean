import ClausalProof.Redundancy.Implied

/-!
Resolution asymmetric tautologies: a clause may be added if each of its resolvents on its first
literal, with a live clause that has the negated literal, is a tautology or implied. Adding it keeps
a formula satisfiable, though it need not follow from the formula.
-/

set_option autoImplicit false

namespace ClausalProof.Engine

/-- The live clauses with the negation of the pivot, oldest first. -/
def candidates (e : Engine) (pivot : Literal) : Checked (List (Nat × Clause)) := do
  return (← e.store.scan).filter fun (_, d) => d.contains (-pivot)

/-- Check the resolvents of `c` with some clauses, up to the first that fails. -/
def checkResolvents (e : Engine) (c : Clause) (pivot : Literal) (evidence : Bool) :
    List (Nat × Clause) → Checked (Engine × Judgment RatFailure)
  | [] => .ok (e, .holds)
  | (_, d) :: rest => do
    let resolvent := Clause.resolve c pivot d
    if resolvent.isTautology then e.checkResolvents c pivot evidence rest
    else
      match ← e.checkImplied resolvent c evidence with
      | (e, .holds) => e.checkResolvents c pivot evidence rest
      | (e, .fails why) => return (e, .fails (why.map fun rup => ⟨c, d, rup⟩))

/-- Check that all resolvents on the first literal are implied. The empty clause has none. -/
def checkResolved (e : Engine) (c : Clause) (evidence : Bool) :
    Checked (Engine × Judgment RatFailure) :=
  match c with
  | [] => .ok (e, .fails none)
  | pivot :: _ => do e.checkResolvents c pivot evidence (← e.candidates pivot)

end ClausalProof.Engine
