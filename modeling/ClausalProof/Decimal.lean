/-!
Decimal text of numbers: no leading zeros, and a minus sign directly before the digits of a
negative number.
-/

set_option autoImplicit false

namespace ClausalProof.Decimal

def digit (d : Nat) : Char := Char.ofNat (48 + d)

/-- Most significant digit first. -/
def digits (n : Nat) : List Char :=
  if n < 10 then [digit n] else digits (n / 10) ++ [digit (n % 10)]

def ofNat (n : Nat) : String := String.ofList (digits n)

def ofInt : Int → String
  | .ofNat n => ofNat n
  | .negSucc n => "-" ++ ofNat (n + 1)

end ClausalProof.Decimal
