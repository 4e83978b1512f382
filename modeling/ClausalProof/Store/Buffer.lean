import ClausalProof.Bounded
import ClausalProof.Clause

/-!
Clauses in one flat array of cells, each of the size of a literal. A clause takes a cell for its
identifier, a cell for its marks, its literals, and the terminator. The offsets say where each clause
starts; one more offset says where the cells stop.
-/

set_option autoImplicit false

namespace ClausalProof

/-- What is known of a clause besides its literals, one bit each. -/
structure Marks where
  bits : UInt32
deriving DecidableEq, Repr

namespace Marks

def none : Marks := ⟨0⟩

def has (m : Marks) (i : UInt32) : Bool := m.bits &&& (1 <<< i) != 0

def put (m : Marks) (i : UInt32) (b : Bool) : Marks :=
  ⟨if b then m.bits ||| (1 <<< i) else m.bits &&& ~~~(1 <<< i)⟩

def isDeleted (m : Marks) : Bool := m.has 0

def setDeleted (m : Marks) (b : Bool) : Marks := m.put 0 b

/-- The clause was added by the proof rather than by the formula. -/
def isDerived (m : Marks) : Bool := m.has 1

def setDerived (m : Marks) (b : Bool) : Marks := m.put 1 b

/-- Literals were repeated in the clause as it was written. -/
def isRepeated (m : Marks) : Bool := m.has 2

def setRepeated (m : Marks) (b : Bool) : Marks := m.put 2 b

def cell (m : Marks) : Literal := .ofCode m.bits.toNat

def ofCell (l : Literal) : Marks := ⟨.ofNat l.code⟩

end Marks

structure Buffer where
  data : Array Literal
  offset : Array Nat
deriving DecidableEq, Repr

namespace Buffer

/-- The cells of a clause before its literals. -/
def paddingStart : Nat := 2

/-- The cell of the marks among those before the literals. -/
def marksOffset : Nat := 1

/-- The cells of a clause behind its literals. -/
def paddingEnd : Nat := 1

def terminator : Literal := ⟨0, false⟩

def empty : Buffer := ⟨#[], #[0]⟩

def size (b : Buffer) : Nat := b.offset.size - 1

/-- The number of clauses, which has to be an identifier. -/
def count (b : Buffer) : Checked Nat := do
  require (b.size ≤ maxIdentifier) .identifierRange
  return b.size

/-- Where the literals of a clause start and stop. -/
def span (b : Buffer) (id : Nat) : Checked (Nat × Nat) := do
  let start ← Bounded.get b.offset id
  let stop ← Bounded.get b.offset (id + 1)
  require (paddingEnd ≤ stop) .belowZero
  return (start + paddingStart, stop - paddingEnd)

def clause (b : Buffer) (id : Nat) : Checked Clause := do
  let (start, stop) ← b.span id
  return (← Bounded.slice b.data start stop).toList

def marks (b : Buffer) (id : Nat) : Checked Marks := do
  let start ← Bounded.get b.offset id
  return .ofCell (← Bounded.get b.data (start + marksOffset))

def setMarks (b : Buffer) (id : Nat) (m : Marks) : Checked Buffer := do
  let start ← Bounded.get b.offset id
  return { b with data := ← Bounded.set b.data (start + marksOffset) m.cell }

def isLive (b : Buffer) (id : Nat) : Checked Bool := do
  return !(← b.marks id).isDeleted

/-- Append the literals that are not among the cells from `start` on, and mark that one is. -/
def pushNew (start : Nat) (data : Array Literal) (m : Marks) :
    Clause → Checked (Array Literal × Marks)
  | [] => .ok (data, m)
  | l :: c => do
    require (!l.isZero) .zeroLiteral
    if (← Bounded.slice data start data.size).contains l then pushNew start data (m.setRepeated true) c
    else pushNew start (data.push l) m c

/-- Append a clause, keeping the first occurrence of each literal. -/
def add (b : Buffer) (c : Clause) (derived : Bool) : Checked (Nat × Buffer) := do
  let id ← b.count
  let m := Marks.none.setDerived derived
  let data := (b.data.push (.ofCode id)).push m.cell
  let (data, m) ← pushNew data.size data m c
  let data := data.push terminator
  let b ← setMarks ⟨data, b.offset.push data.size⟩ id m
  return (id, b)

/-- The live ones among `n` clauses from `id` on, with their identifiers. -/
def scanFrom (b : Buffer) (id : Nat) : Nat → Checked (List (Nat × Clause))
  | 0 => .ok []
  | n + 1 => do
    if ← b.isLive id then
      let c ← b.clause id
      return (id, c) :: (← b.scanFrom (id + 1) n)
    else b.scanFrom (id + 1) n

/-- The live clauses with their identifiers, oldest first. -/
def scan (b : Buffer) : Checked (List (Nat × Clause)) := do
  b.scanFrom 0 (← b.count)

end Buffer
end ClausalProof
