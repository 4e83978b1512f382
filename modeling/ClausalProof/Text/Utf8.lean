import ClausalProof.Decimal

/-!
Decoding of UTF-8. The first sequence that is not well formed is reported by its index and the
number of its bytes that could still start a character, unless the input ends within it.
-/

set_option autoImplicit false

namespace ClausalProof.Text

inductive Utf8Error where
  | invalid (length index : Nat)
  | incomplete (index : Nat)
deriving DecidableEq, Repr

def Utf8Error.message : Utf8Error → String
  | .invalid length index =>
    "invalid utf-8 sequence of " ++ Decimal.ofNat length ++ " bytes from index " ++
      Decimal.ofNat index
  | .incomplete index => "incomplete utf-8 byte sequence from index " ++ Decimal.ofNat index

def isContinuation (b : UInt8) : Bool := 0x80 ≤ b && b ≤ 0xBF

/-- The bytes that may follow the first byte of a character of three or four bytes. -/
def secondByteOk (first second : UInt8) : Bool :=
  if first = 0xE0 then 0xA0 ≤ second && second ≤ 0xBF
  else if first = 0xED then 0x80 ≤ second && second ≤ 0x9F
  else if first = 0xF0 then 0x90 ≤ second && second ≤ 0xBF
  else if first = 0xF4 then 0x80 ≤ second && second ≤ 0x8F
  else isContinuation second

def payload (b : UInt8) : Nat := b.toNat % 64

/-- The character of a sequence whose first byte has value `n` without its length mark. -/
def charOf (n : Nat) (rest : List UInt8) : Char :=
  Char.ofNat (rest.foldl (fun n b => 64 * n + payload b) n)

/-- The characters of some bytes, of which the first has the given index. -/
def decodeUtf8From (index : Nat) : List UInt8 → Except Utf8Error (List Char)
  | [] => .ok []
  | a :: rest =>
    if a < 0x80 then (Char.ofNat a.toNat :: ·) <$> decodeUtf8From (index + 1) rest
    else if 0xC2 ≤ a && a ≤ 0xDF then
      match rest with
      | [] => .error (.incomplete index)
      | b :: rest =>
        if isContinuation b then
          (charOf (a.toNat % 32) [b] :: ·) <$> decodeUtf8From (index + 2) rest
        else .error (.invalid 1 index)
    else if 0xE0 ≤ a && a ≤ 0xEF then
      match rest with
      | [] => .error (.incomplete index)
      | [b] => .error (if secondByteOk a b then .incomplete index else .invalid 1 index)
      | b :: c :: rest =>
        if !secondByteOk a b then .error (.invalid 1 index)
        else if !isContinuation c then .error (.invalid 2 index)
        else (charOf (a.toNat % 16) [b, c] :: ·) <$> decodeUtf8From (index + 3) rest
    else if 0xF0 ≤ a && a ≤ 0xF4 then
      match rest with
      | [] => .error (.incomplete index)
      | [b] => .error (if secondByteOk a b then .incomplete index else .invalid 1 index)
      | [b, c] =>
        .error (if !secondByteOk a b then .invalid 1 index
          else if !isContinuation c then .invalid 2 index else .incomplete index)
      | b :: c :: d :: rest =>
        if !secondByteOk a b then .error (.invalid 1 index)
        else if !isContinuation c then .error (.invalid 2 index)
        else if !isContinuation d then .error (.invalid 3 index)
        else (charOf (a.toNat % 8) [b, c, d] :: ·) <$> decodeUtf8From (index + 4) rest
    else .error (.invalid 1 index)

def decodeUtf8 (bytes : List UInt8) : Except Utf8Error String :=
  String.ofList <$> decodeUtf8From 0 bytes

def encodeUtf8 (text : String) : List UInt8 := text.toUTF8.data.toList

end ClausalProof.Text
