import ClausalProof.Store
import ClausalProof.Trail

/-!
The live clauses together with what unit propagation needs of them. A clause of two or more
literals is listed under two of its literals, the watched ones; clauses of one literal are in
`units`, oldest first, and clauses without literals are counted. Clauses come and go only while
the trail is empty.
-/

set_option autoImplicit false

namespace ClausalProof

/-- The positions of the two watched literals in a clause. -/
structure Watch where
  first : Nat
  second : Nat
deriving DecidableEq, Repr

structure Engine where
  maxVar : Nat
  store : Store
  trail : Trail
  /-- The number of trail entries whose consequences have been drawn. -/
  processed : Nat
  /-- The clauses that watch a literal, by its code. -/
  watchers : Array (Array Nat)
  /-- The watched positions, by identifier. -/
  watches : Array Watch
  units : List Nat
  emptyCount : Nat

namespace Engine

def empty (maxVar : Nat) : Engine where
  maxVar := maxVar
  store := .empty
  trail := .empty maxVar
  processed := 0
  watchers := .replicate (Literal.literalSlots maxVar) #[]
  watches := #[]
  units := []
  emptyCount := 0

def hasEmptyClause (e : Engine) : Bool := decide (0 < e.emptyCount)

def watchersOf (e : Engine) (l : Literal) : Checked (Array Nat) := Bounded.get e.watchers l.code

/-- List a clause under a literal, after the clauses that are listed there. -/
def watch (watchers : Array (Array Nat)) (l : Literal) (id : Nat) : Checked (Array (Array Nat)) := do
  let row ← Bounded.get watchers l.code
  Bounded.set watchers l.code (row.push id)

/-- Strike a clause off the list of a literal; the last clause of the list takes its place. -/
def unwatch (watchers : Array (Array Nat)) (l : Literal) (id : Nat) : Checked (Array (Array Nat)) := do
  let row ← Bounded.get watchers l.code
  match row.idxOf? id with
  | none => .error .brokenWatch
  | some i =>
    let (_, row) ← Bounded.swapRemove row i
    Bounded.set watchers l.code row

/-- The literal at a position of a clause. -/
def literalAt (literals : Clause) (i : Nat) : Checked Literal :=
  match literals[i]? with
  | some l => .ok l
  | none => .error .outOfBounds

/-- Add a clause and watch its first two literals. -/
def add (e : Engine) (c : Clause) (derived : Bool) : Checked (Nat × Engine) := do
  require e.trail.isEmpty .trailInUse
  require (c.all fun l => l.var ≤ e.maxVar) .unknownVariable
  let (id, store) ← e.store.add c derived
  require (e.watches.size == id) .brokenWatch
  let e := { e with store := store }
  match ← store.clause id with
  | [] => return (id, { e with emptyCount := e.emptyCount + 1, watches := e.watches.push ⟨0, 0⟩ })
  | [_] => return (id, { e with units := e.units ++ [id], watches := e.watches.push ⟨0, 0⟩ })
  | a :: b :: _ =>
    let watchers ← watch e.watchers a id
    let watchers ← watch watchers b id
    return (id, { e with watchers := watchers, watches := e.watches.push ⟨0, 1⟩ })

/-- Delete the oldest live clause with the same literals, if there is one. -/
def delete (e : Engine) (c : Clause) : Checked (Option Nat × Engine) := do
  require e.trail.isEmpty .trailInUse
  match ← e.store.delete c with
  | (none, _) => return (none, e)
  | (some id, store) =>
    let e := { e with store := store }
    match ← store.clause id with
    | [] =>
      require e.hasEmptyClause .belowZero
      return (some id, { e with emptyCount := e.emptyCount - 1 })
    | [_] =>
      require (e.units.contains id) .brokenWatch
      return (some id, { e with units := e.units.erase id })
    | stored =>
      let w ← Bounded.get e.watches id
      let watchers ← unwatch e.watchers (← literalAt stored w.first) id
      let watchers ← unwatch watchers (← literalAt stored w.second) id
      return (some id, { e with watchers := watchers })

def addAll (e : Engine) : Formula → Checked Engine
  | [] => .ok e
  | c :: f => do
    let (_, e) ← e.add c false
    e.addAll f

/-- The engine with the clauses of a formula, for literals up to `maxVar`. -/
def ofFormula (maxVar : Nat) (f : Formula) : Checked Engine := (empty maxVar).addAll f

/-- Undo all assignments. -/
def backtrack (e : Engine) : Checked Engine := do
  return { e with trail := ← e.trail.clear, processed := 0 }

end Engine
end ClausalProof
