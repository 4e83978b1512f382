import ClausalProof.Decimal

/-!
Reading bytes with a position. A cursor is the rest of the input and the line and column of its
first byte, both counted from 1. A reader returns the cursor behind what it consumed, also when it
fails; what failed is reported with the position where it failed.
-/

set_option autoImplicit false

namespace ClausalProof.Text

structure Position where
  line : Nat
  column : Nat
deriving DecidableEq, Repr

def newline : UInt8 := 10

def dash : UInt8 := 45

/-- Space, tab, line feed and carriage return. -/
def isBlank (b : UInt8) : Bool := b == 32 || b == 9 || b == newline || b == 13

def isDigit (b : UInt8) : Bool := 48 ≤ b && b ≤ 57

/-- The position behind a byte. -/
def Position.after (p : Position) (b : UInt8) : Position :=
  if b = newline then ⟨p.line + 1, 1⟩ else ⟨p.line, p.column + 1⟩

/-- What was found missing, or wrong, in a text. -/
inductive Cause where
  | overflow
  | endOfFile
  | number
  | space
  | header
  | instruction
  | terminator
deriving DecidableEq, Repr

def Cause.text : Cause → String
  | .overflow => "overflow while parsing number"
  | .endOfFile => "premature end of file"
  | .number => "expected number"
  | .space => "expected space"
  | .header => "expected \"p cnf\""
  | .instruction => "expected DRAT instruction"
  | .terminator => "expected terminating \"0\""

structure TextError where
  cause : Cause
  position : Position
deriving DecidableEq, Repr

def TextError.message (e : TextError) : String :=
  e.cause.text ++ " at line " ++ Decimal.ofNat e.position.line ++
    " column " ++ Decimal.ofNat e.position.column

structure Cursor where
  rest : List UInt8
  position : Position
deriving DecidableEq, Repr

abbrev Reader := EStateM TextError Cursor

namespace Cursor

def ofBytes (bytes : List UInt8) : Cursor := ⟨bytes, ⟨1, 1⟩⟩

def error (c : Cursor) (cause : Cause) : TextError := ⟨cause, c.position⟩

def peek? (c : Cursor) : Option UInt8 := c.rest.head?

/-- Consume one byte, if there is one. -/
def next (c : Cursor) : Cursor :=
  match c.rest with
  | [] => c
  | b :: rest => ⟨rest, c.position.after b⟩

/-- Consume the bytes up to the first that does not satisfy `p`. -/
def skipWhile (p : UInt8 → Bool) (c : Cursor) : Cursor :=
  ⟨c.rest.dropWhile p, (c.rest.takeWhile p).foldl Position.after c.position⟩

def skipBlank (c : Cursor) : Cursor := c.skipWhile isBlank

/-- Consume everything up to and including the next newline. -/
def skipLine (c : Cursor) : Cursor := (c.skipWhile (· != newline)).next

def skipAll (c : Cursor) : Cursor := c.skipWhile fun _ => true

theorem length_skipWhile_le (p : UInt8 → Bool) (c : Cursor) :
    (c.skipWhile p).rest.length ≤ c.rest.length :=
  (List.dropWhile_sublist p).length_le

theorem length_next_le (c : Cursor) : c.next.rest.length ≤ c.rest.length := by
  unfold next
  split
  · exact Nat.le_refl _
  · rename_i b rest h
    simp [h]

theorem length_next_lt {c : Cursor} (h : c.rest ≠ []) : c.next.rest.length < c.rest.length := by
  unfold next
  split
  · contradiction
  · rename_i b rest h
    simp [h]

theorem length_skipLine_lt {c : Cursor} (h : c.rest ≠ []) :
    c.skipLine.rest.length < c.rest.length := by
  by_cases hs : (c.skipWhile (· != newline)).rest = []
  · have := length_next_le (c.skipWhile (· != newline))
    rw [hs] at this
    have hp := List.length_pos_iff.2 h
    simp only [skipLine, List.length_nil] at this ⊢
    omega
  · exact Nat.lt_of_lt_of_le (length_next_lt hs) (length_skipWhile_le _ c)

end Cursor

/-- The largest number that a reader accepts. -/
def maxNumber : Nat := UInt64.size / 2 - 1

/-- Continue a number whose digits so far have value `v`. A digit that makes it too large is not
    consumed. -/
def digitsFrom (v : Nat) (p : Position) : List UInt8 → EStateM.Result TextError Cursor Nat
  | [] => .ok v ⟨[], p⟩
  | b :: rest =>
    if isDigit b then
      let w := 10 * v + (b.toNat - 48)
      if w ≤ maxNumber then digitsFrom w (p.after b) rest
      else .error ⟨.overflow, p⟩ ⟨b :: rest, p⟩
    else .ok v ⟨b :: rest, p⟩

/-- One or more digits. -/
def natural : Reader Nat := fun c =>
  if c.peek?.any isDigit then digitsFrom 0 c.position c.rest
  else .error (c.error .number) c

/-- A number with an optional minus, of absolute value at most `maxNumber`. -/
def number64 : Reader Int := fun c =>
  if c.peek? = some dash then
    match natural c.next with
    | .ok v c => .ok (-(v : Int)) c
    | .error e c => .error e c
  else
    match natural c with
    | .ok v c => .ok (v : Int) c
    | .error e c => .error e c

/-- A number with an optional minus, of absolute value at most 2147483647. -/
def number32 : Reader Int := fun c =>
  match number64 c with
  | .ok v c => if v.natAbs ≤ 2147483647 then .ok v c else .error (c.error .overflow) c
  | .error e c => .error e c

/-- Consume blanks; there has to be one unless the input ends. -/
def skipSome : Reader Unit := fun c =>
  if c.peek?.any fun b => !isBlank b then .error (c.error .space) c
  else .ok () c.skipBlank

theorem length_digitsFrom_le {v w : Nat} {p : Position} {bytes : List UInt8} {c : Cursor}
    (h : digitsFrom v p bytes = .ok w c) : c.rest.length ≤ bytes.length := by
  induction bytes generalizing v p with
  | nil =>
    simp only [digitsFrom, EStateM.Result.ok.injEq] at h
    simp [← h.2]
  | cons b rest ih =>
    simp only [digitsFrom] at h
    split at h
    · split at h
      · exact Nat.le_succ_of_le (ih h)
      · simp at h
    · simp only [EStateM.Result.ok.injEq] at h
      simp [← h.2]

theorem length_natural_lt {v : Nat} {c d : Cursor} (h : natural c = .ok v d) :
    d.rest.length < c.rest.length := by
  unfold natural at h
  split at h
  · rename_i hd
    rcases hr : c.rest with _ | ⟨b, rest⟩
    · simp [Cursor.peek?, hr] at hd
    · rw [hr] at h
      have hb : isDigit b = true := by simpa [Cursor.peek?, hr] using hd
      simp only [digitsFrom, hb, ↓reduceIte] at h
      split at h
      · exact Nat.lt_succ_of_le (length_digitsFrom_le h)
      · simp at h
  · simp at h

theorem length_number64_lt {v : Int} {c d : Cursor} (h : number64 c = .ok v d) :
    d.rest.length < c.rest.length := by
  unfold number64 at h
  split at h
  · split at h
    · rename_i hn
      simp only [EStateM.Result.ok.injEq] at h
      rw [← h.2]
      exact Nat.lt_of_lt_of_le (length_natural_lt hn) c.length_next_le
    · simp at h
  · split at h
    · rename_i hn
      simp only [EStateM.Result.ok.injEq] at h
      rw [← h.2]
      exact length_natural_lt hn
    · simp at h

theorem length_number32_lt {v : Int} {c d : Cursor} (h : number32 c = .ok v d) :
    d.rest.length < c.rest.length := by
  unfold number32 at h
  split at h
  · rename_i hn
    split at h
    · simp only [EStateM.Result.ok.injEq] at h
      rw [← h.2]
      exact length_number64_lt hn
    · simp at h
  · simp at h

theorem length_skipSome_le {u : Unit} {c d : Cursor} (h : skipSome c = .ok u d) :
    d.rest.length ≤ c.rest.length := by
  unfold skipSome at h
  split at h
  · simp at h
  · simp only [EStateM.Result.ok.injEq] at h
    rw [← h.2]
    exact c.length_skipWhile_le isBlank

end ClausalProof.Text
