import ClausalProof.Decimal
import ClausalProof.Fault

/-!
Literals are variables with a sign. Tables over literals are indexed by `Literal.code`, twice the
variable plus one for a negative literal, so negation changes the lowest bit only. Variable 0 names
no variable: its positive literal is the terminator of a written clause.
-/

set_option autoImplicit false

namespace ClausalProof

structure Literal where
  var : Nat
  negative : Bool
deriving DecidableEq, Repr, Inhabited

/-- The largest variable of a written literal. -/
def maxVariable : Nat := 2147483647

namespace Literal

def code (l : Literal) : Nat := 2 * l.var + l.negative.toNat

def ofCode (n : Nat) : Literal := ⟨n / 2, n % 2 == 1⟩

def neg (l : Literal) : Literal := ⟨l.var, !l.negative⟩

instance : Neg Literal := ⟨neg⟩

/-- The signed number that writes the literal; both literals of variable 0 are written 0. -/
def toInt (l : Literal) : Int := if l.negative then -(l.var : Int) else l.var

def ofInt (v : Int) : Literal := ⟨v.natAbs, v < 0⟩

/-- The smallest 32 bit number has no positive counterpart and writes no literal. -/
def ofInt? (v : Int) : Checked Literal :=
  if v.natAbs ≤ maxVariable then .ok (ofInt v) else .error .literalRange

def isZero (l : Literal) : Bool := l.var == 0 && !l.negative

def isValid (l : Literal) : Bool := decide (1 ≤ l.var) && decide (l.var ≤ maxVariable)

def text (l : Literal) : String := Decimal.ofInt l.toInt

/-- The positive literal of a variable, if its code fits 32 bits. -/
def positive (v : Nat) : Checked Literal :=
  if 2 * v < UInt32.size then .ok ⟨v, false⟩ else .error .literalRange

/-- Size of a table indexed by the variables up to `v`. -/
def variableSlots (v : Nat) : Nat := v + 1

/-- Size of a table indexed by the codes of the literals up to variable `v`. -/
def literalSlots (v : Nat) : Nat := 2 * (v + 1)

/-- The literals of the variables from 1 to `v`, by increasing code. The end of the enumeration is
    kept in 32 bits, so it starts over beyond `maxVariable - 1`. -/
def upTo (v : Nat) : List Literal :=
  (List.range' 2 (literalSlots v % UInt32.size - 2)).map ofCode

@[simp] theorem neg_neg (l : Literal) : - -l = l := by
  cases l; simp [Neg.neg, neg]

@[simp] theorem var_neg (l : Literal) : (-l).var = l.var := rfl

theorem ofCode_code (l : Literal) : ofCode l.code = l := by
  rcases l with ⟨v, b⟩
  cases b
  · simp [ofCode, code]
  · simp [ofCode, code]
    omega

theorem code_inj {l m : Literal} : l.code = m.code ↔ l = m :=
  ⟨fun h => by rw [← ofCode_code l, h, ofCode_code], fun h => h ▸ rfl⟩

end Literal
end ClausalProof
