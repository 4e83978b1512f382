import ClausalProof.Clause
import ClausalProof.Fault

/-!
What a check says: whether a clause is redundant (`Judgment`) and whether a proof is accepted
(`Verdict`). A rejection may carry the evidence of the failed checks: the literals that propagation
made true before it came to rest, assumptions first.
-/

set_option autoImplicit false

namespace ClausalProof

/-- The result of a redundancy check; a failure carries evidence if it was asked for. -/
inductive Judgment (α : Type) where
  | holds
  | fails (evidence : Option α)
deriving DecidableEq, Repr

namespace Judgment

variable {α : Type}

def isHolds : Judgment α → Bool
  | .holds => true
  | .fails _ => false

end Judgment

/-- Propagation of the negated clause came to rest with the literals of `chain`. -/
structure RupFailure where
  clause : Clause
  chain : List Literal
deriving DecidableEq, Repr

/-- The resolvent of `clause` with `pivotClause` on the first literal of `clause` is not implied. -/
structure RatFailure where
  clause : Clause
  pivotClause : Clause
  rup : RupFailure
deriving DecidableEq, Repr

def RupFailure.text (r : RupFailure) : String :=
  "RUP check failed for " ++ r.clause.text ++ " with chain " ++ Clause.chainText r.chain

def RatFailure.text (r : RatFailure) : String :=
  "RAT check failed for " ++ r.clause.text ++
    (match r.clause.head? with
      | some pivot => " on pivot " ++ pivot.text
      | none => "") ++
    " with clause " ++ r.pivotClause.text ++ " and chain " ++ Clause.chainText r.rup.chain

inductive Outcome where
  | valid
  | invalid
deriving DecidableEq, Repr

def Outcome.name : Outcome → String
  | .valid => "VALID"
  | .invalid => "INVALID"

def Outcome.ofName? : String → Option Outcome
  | "VALID" => some .valid
  | "INVALID" => some .invalid
  | _ => none

@[simp] theorem Outcome.ofName?_name (o : Outcome) : ofName? o.name = some o := by
  cases o <;> rfl

structure Verdict where
  outcome : Outcome
  /-- The rejected step, counted from 1; absent if the proof ended without the empty clause. -/
  step : Option Nat
  /-- The clauses accepted before the rejection. -/
  accepted : Option (List Clause)
  rup : Option RupFailure
  rat : Option RatFailure
deriving DecidableEq, Repr

namespace Verdict

def valid : Verdict := ⟨.valid, none, none, none, none⟩

def invalid : Verdict := ⟨.invalid, none, none, none, none⟩

def isValid (v : Verdict) : Bool := v.outcome == .valid

/-- The number of steps before the rejected one, which may lie right behind the proof. -/
def stepsBefore (p : Proof) : Option Nat → Checked Nat
  | none => .ok p.length
  | some step => do
    require (1 ≤ step && step ≤ p.length + 1) .stepRange
    return step - 1

/-- The verdict on a rejected proof, bare or with its evidence. -/
def rejected (evidence : Bool) (p : Proof) (step : Option Nat) (rup : Option RupFailure)
    (rat : Option RatFailure) : Checked Verdict :=
  if evidence then do
    let n ← stepsBefore p step
    return ⟨.invalid, step, some (Proof.additions (p.take n)), rup, rat⟩
  else .ok invalid

end Verdict
end ClausalProof
