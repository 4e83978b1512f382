import ClausalProof.Store.Buffer
import ClausalProof.Store.Index

/-!
The store keeps every clause that was ever added, under the identifiers 0, 1, 2, and so on.
Deletion marks a clause and never moves one, so identifiers stay valid. Clauses are found by their
set of literals through the index, the oldest live one first.
-/

set_option autoImplicit false

namespace ClausalProof

structure Store where
  buffer : Buffer
  index : Index
  live : Nat

namespace Store

def empty : Store := ⟨.empty, .empty, 0⟩

/-- The number of clauses ever added. -/
def size (s : Store) : Nat := s.buffer.size

def clause (s : Store) (id : Nat) : Checked Clause := s.buffer.clause id

def isLive (s : Store) (id : Nat) : Checked Bool := s.buffer.isLive id

/-- The live clauses with their identifiers, oldest first. -/
def scan (s : Store) : Checked (List (Nat × Clause)) := s.buffer.scan

/-- Add a clause, keeping the first occurrence of each literal. -/
def add (s : Store) (c : Clause) (derived : Bool) : Checked (Nat × Store) := do
  let (id, buffer) ← s.buffer.add c derived
  let index ← s.index.add (Clause.key (← buffer.clause id)) id
  return (id, ⟨buffer, index, s.live + 1⟩)

/-- Delete the oldest live clause with the same literals, if there is one. -/
def delete (s : Store) (c : Clause) : Checked (Option Nat × Store) :=
  match s.index.takeFirst (Clause.key c) with
  | (none, _) => .ok (none, s)
  | (some id, index) => do
    let m ← s.buffer.marks id
    require (!m.isDeleted) .deletedTwice
    let buffer ← s.buffer.setMarks id (m.setDeleted true)
    require (0 < s.live) .belowZero
    return (some id, ⟨buffer, index, s.live - 1⟩)

/-- The oldest live clause with the same literals. -/
def find? (s : Store) (c : Clause) : Option Nat := s.index.first? (Clause.key c)

def last (s : Store) : Checked Nat := do
  let n ← s.buffer.count
  require (n != 0) .emptyStore
  return n - 1

def clauseText (id : Nat) (c : Clause) : String :=
  "[" ++ Decimal.ofNat id ++ "]" ++ String.join (c.map fun l => " " ++ l.text) ++ " 0"

/-- Stores with the same clauses under the same identifiers, with the same marks. -/
def same (s t : Store) : Bool := s.buffer == t.buffer

def addAll (s : Store) : Formula → Checked Store
  | [] => .ok s
  | c :: f => do
    let (_, s) ← s.add c false
    s.addAll f

def ofFormula (f : Formula) : Checked Store := empty.addAll f

/-- Apply a step without checking it. -/
def apply (s : Store) : Step → Checked Store
  | .add c => return (← s.add c true).2
  | .delete c => return (← s.delete c).2

/-- Apply steps without checking them. -/
def applyAll (s : Store) : Proof → Checked Store
  | [] => .ok s
  | step :: p => do (← s.apply step).applyAll p

/-- The store after a formula and the steps of a proof, none of them checked. -/
def replay (f : Formula) (p : Proof) : Checked Store := do
  (← ofFormula f).applyAll p

end Store
end ClausalProof
