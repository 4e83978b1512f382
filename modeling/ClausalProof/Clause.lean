import ClausalProof.Literal

/-!
Clauses are lists of literals, kept as they were written: order and repetition matter to printing
and to the choice of the pivot, while deletion looks at the set of literals only (`Clause.key`).
-/

set_option autoImplicit false

namespace ClausalProof

abbrev Clause := List Literal

abbrev Formula := List Clause

/-- Identifiers of clauses fit 32 bits. -/
def maxIdentifier : Nat := UInt32.size - 1

namespace Clause

/-- The clause as a written line without its line end. -/
def text (c : Clause) : String := String.join (c.map fun l => l.text ++ " ") ++ "0"

/-- The literals separated by blanks, in angle brackets. -/
def chainText (chain : List Literal) : String :=
  "<" ++ " ".intercalate (chain.map Literal.text) ++ ">"

def maxVar (c : Clause) : Nat := c.foldr (fun l m => max l.var m) 0

/-- Insertion into an increasing list without repetition. -/
def insertCode (k : Nat) : List Nat → List Nat
  | [] => [k]
  | m :: ms => if k < m then k :: m :: ms else if k = m then m :: ms else m :: insertCode k ms

/-- The set of literals as an increasing list of codes. -/
def key (c : Clause) : List Nat := c.foldr (fun l ks => insertCode l.code ks) []

def isTautology (c : Clause) : Bool := c.any fun l => c.contains (-l)

/-- The resolvent on `pivot`: literals of `c` first, each literal once. -/
def resolve (c : Clause) (pivot : Literal) (d : Clause) : Clause :=
  (c.filter (· != pivot) ++ d.filter (· != -pivot)).eraseDups

end Clause

/-- The largest variable of some clauses, 0 if there is none. -/
def Formula.maxVar (f : Formula) : Nat := f.foldr (fun c m => max (Clause.maxVar c) m) 0

/-- A step of a proof adds a clause, or deletes the oldest clause with the same literals. -/
inductive Step where
  | add (literals : Clause)
  | delete (literals : Clause)
deriving DecidableEq, Repr

abbrev Proof := List Step

namespace Step

def literals : Step → Clause
  | .add c => c
  | .delete c => c

def isDeletion : Step → Bool
  | .add _ => false
  | .delete _ => true

def added? : Step → Option Clause
  | .add c => some c
  | .delete _ => none

def text : Step → String
  | .add c => Clause.text c
  | .delete c => "d " ++ Clause.text c

end Step

namespace Proof

def maxVar (p : Proof) : Nat := Formula.maxVar (p.map Step.literals)

/-- The clauses that a proof adds, in order. -/
def additions (p : Proof) : List Clause := p.filterMap Step.added?

end Proof
end ClausalProof
