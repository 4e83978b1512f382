import ClausalProof.Clause
import Std.Data.TreeMap

/-!
The identifiers of clauses by content: each set of literals, given by its increasing list of codes,
leads to the identifiers of the live clauses with that set, oldest first. A set without clauses is
not in the table.
-/

set_option autoImplicit false

namespace ClausalProof

structure Index where
  table : Std.TreeMap (List Nat) (List Nat)

namespace Index

def empty : Index := ⟨∅⟩

/-- The identifiers under a key, oldest first. -/
def ids (x : Index) (key : List Nat) : List Nat := x.table.getD key []

/-- Append an identifier, which has to be newer than the others under its key. -/
def add (x : Index) (key : List Nat) (id : Nat) : Checked Index := do
  require (id ≤ maxIdentifier) .identifierRange
  let older := x.ids key
  require (older.getLast?.all (· < id)) .identifierOrder
  return ⟨x.table.insert key (older ++ [id])⟩

def first? (x : Index) (key : List Nat) : Option Nat := (x.ids key).head?

/-- Take out the oldest identifier under a key. -/
def takeFirst (x : Index) (key : List Nat) : Option Nat × Index :=
  match x.ids key with
  | [] => (none, x)
  | [id] => (some id, ⟨x.table.erase key⟩)
  | id :: rest => (some id, ⟨x.table.insert key rest⟩)

def size (x : Index) : Nat := x.table.size

def isEmpty (x : Index) : Bool := x.table.isEmpty

end Index
end ClausalProof
