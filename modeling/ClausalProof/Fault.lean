/-!
Operations of this library are partial: a table is read at an index it may not have, a clause is
added while a check is under way. Such a use is answered by a `Fault` that names what was violated.
Nothing here says that a fault is reachable from the public checks.
-/

set_option autoImplicit false

namespace ClausalProof

inductive Fault where
  | outOfBounds
  | literalRange
  | identifierRange
  | identifierOrder
  | zeroLiteral
  | invalidLiteral
  | alreadyAssigned
  | notAssigned
  | trailInUse
  | unknownVariable
  | emptyStore
  | deletedTwice
  | belowZero
  | brokenWatch
  | chainLength
  | notReady
  | stepRange
  | labelLength
deriving DecidableEq, Repr

abbrev Checked := Except Fault

/-- Continue only if the condition holds. -/
def require (condition : Bool) (fault : Fault) : Checked Unit :=
  if condition then .ok () else .error fault

@[simp] theorem require_eq_ok {condition : Bool} {fault : Fault} {u : Unit} :
    require condition fault = .ok u ↔ condition = true := by
  cases condition <;> simp [require]

theorem Checked.bind_eq_ok {α β : Type} {x : Checked α} {f : α → Checked β} {b : β} :
    (x >>= f) = .ok b ↔ ∃ a, x = .ok a ∧ f a = .ok b := by
  cases x <;> simp [bind, Except.bind]

theorem Checked.pure_eq_ok {α : Type} {a b : α} : (pure a : Checked α) = .ok b ↔ a = b := by
  simp [pure, Except.pure]

end ClausalProof
