import ClausalProof.Text.Dimacs

/-!
A problem is what has been read so far: a formula with its header, a proof, and the largest variable
of both. Reading adds to a problem; a malformed text adds what stood before its first error.
-/

set_option autoImplicit false

namespace ClausalProof

open Text

structure Problem where
  maxVar : Nat
  header : Option Header
  formula : Formula
  proof : Proof
deriving DecidableEq, Repr

/-- Something about the input that looks wrong, though it can be checked. -/
inductive Warning where
  | clauseCount (announced actual : Nat)
  | farVariable (var announced : Nat)
deriving DecidableEq, Repr

def Warning.text : Warning → String
  | .clauseCount announced actual =>
    "c Warning: header announces " ++ Decimal.ofNat announced ++
      " clauses, but the formula has " ++ Decimal.ofNat actual
  | .farVariable var announced =>
    "c Warning: variable " ++ Decimal.ofNat var ++ " is far beyond the " ++
      Decimal.ofNat announced ++ " variables of the header, memory use grows with it"

namespace Problem

def empty : Problem := ⟨0, none, [], []⟩

def readFormula (p : Problem) (bytes : List UInt8) : Problem × Option TextError :=
  match Header.read (.ofBytes bytes) with
  | .error e _ => (p, some e)
  | .ok header c =>
    let (listing, failure) := Listing.read .clauses ⟨#[], p.maxVar⟩ c
    ({ p with
        header := some header
        maxVar := listing.maxVar
        formula := p.formula ++ listing.steps.toList.map Step.literals }, failure)

def readProof (p : Problem) (bytes : List UInt8) : Problem × Option TextError :=
  let (listing, failure) := Listing.read .proof ⟨#[], p.maxVar⟩ (.ofBytes bytes)
  ({ p with maxVar := listing.maxVar, proof := p.proof ++ listing.steps.toList }, failure)

/-- Read clauses that belong neither to the formula nor to the proof. -/
def readClauses (p : Problem) (bytes : List UInt8) : Problem × Except TextError (List Clause) :=
  match Listing.read .clauses ⟨#[], p.maxVar⟩ (.ofBytes bytes) with
  | (listing, some e) => ({ p with maxVar := listing.maxVar }, .error e)
  | (listing, none) =>
    ({ p with maxVar := listing.maxVar }, .ok (listing.steps.toList.map Step.literals))

/-- The formula has another number of clauses than its header says. -/
def clauseCountWarning? (p : Problem) : Option Warning := do
  let header ← p.header
  if header.clauseCount ≠ p.formula.length then
    some (.clauseCount header.clauseCount p.formula.length)
  else none

/-- The number of variables in the header, if the largest variable exceeds it by more than the
    number of added clauses. -/
def exceededHeader? (p : Problem) : Option Nat := do
  let header ← p.header
  if header.variableCount + (Proof.additions p.proof).length < p.maxVar then some header.variableCount
  else none

def farVariableWarning? (p : Problem) : Option Warning :=
  p.exceededHeader?.map (.farVariable p.maxVar)

end Problem
end ClausalProof
