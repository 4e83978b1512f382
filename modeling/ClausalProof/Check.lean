import ClausalProof.Session

/-!
Checks of clauses that are given as signed numbers. Every literal is looked at before any checking:
0 and the smallest 32 bit number denote no literal, and the first such number is reported with its
place, the formula before the proof.
-/

set_option autoImplicit false

namespace ClausalProof

/-- Where a number stands that denotes no literal. Clauses and steps are counted from 1. -/
inductive InputError where
  | premise (number : Nat) (value : Int)
  | step (number : Nat) (value : Int)
  | candidate (value : Int)
deriving DecidableEq, Repr

def InputError.message : InputError → String
  | .premise n v => "invalid literal " ++ Decimal.ofInt v ++ " in premise clause " ++ Decimal.ofNat n
  | .step n v => "invalid literal " ++ Decimal.ofInt v ++ " in proof step " ++ Decimal.ofNat n
  | .candidate v => "invalid literal " ++ Decimal.ofInt v ++ " in lemma"

/-- A step whose literals are given as numbers. -/
inductive NumberStep where
  | add (values : List Int)
  | delete (values : List Int)
deriving DecidableEq, Repr

namespace Check

def denotesLiteral (v : Int) : Bool := v != 0 && decide (v.natAbs ≤ maxVariable)

/-- The literals of some numbers, or the first number that denotes none. -/
def clause (values : List Int) : Except Int Clause :=
  match values.find? fun v => !denotesLiteral v with
  | some v => .error v
  | none => .ok (values.map Literal.ofInt)

/-- The clauses of a formula, numbered from `n`. -/
def formula (n : Nat) : List (List Int) → Except InputError Formula
  | [] => .ok []
  | values :: rest => do
    let c ← (clause values).mapError (.premise n)
    return c :: (← formula (n + 1) rest)

/-- The step with its literals in place of its numbers. -/
def step : NumberStep → Except Int Step
  | .add values => Step.add <$> clause values
  | .delete values => Step.delete <$> clause values

/-- The steps of a proof, numbered from `n`. -/
def proof (n : Nat) : List NumberStep → Except InputError Proof
  | [] => .ok []
  | s :: rest => do
    let s ← (step s).mapError (.step n)
    return s :: (← proof (n + 1) rest)

end Check

/-- Check a proof for a formula, both given as numbers. -/
def check (f : List (List Int)) (p : List NumberStep) (mode : Mode) (evidence : Bool) :
    Checked (Except InputError Verdict) :=
  match Check.formula 1 f, Check.proof 1 p with
  | .error e, _ => .ok (.error e)
  | .ok _, .error e => .ok (.error e)
  | .ok f, .ok p => .ok <$> checkProof f p ⟨mode, evidence⟩

/-- Check a single clause against a formula, both given as numbers. -/
def checkStep (f : List (List Int)) (values : List Int) : Checked (Except InputError Bool) :=
  match Check.formula 1 f, Check.clause values with
  | .error e, _ => .ok (.error e)
  | .ok _, .error v => .ok (.error (.candidate v))
  | .ok f, .ok c => .ok <$> isRedundant f c

end ClausalProof
