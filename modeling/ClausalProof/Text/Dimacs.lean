import ClausalProof.Clause
import ClausalProof.Text.Cursor

/-!
The written form of formulas, proofs and lists of clauses. A clause is a sequence of numbers that
ends with 0 and may span lines; a deletion starts with `d`, a comment with `c`. Clauses are kept as
written. When a text turns out to be malformed, what came before stays: complete clauses are stored,
and the literals of an incomplete one still count for the largest variable.
-/

set_option autoImplicit false

namespace ClausalProof

open Text

namespace Text

/-- Skip blanks and comments. -/
def skipComments (c : Cursor) : Cursor :=
  if _h : c.skipBlank.peek? = some 99 then skipComments c.skipBlank.skipLine else c.skipBlank
termination_by c.rest.length
decreasing_by
  have hne : c.skipBlank.rest ≠ [] := by
    intro h
    simp [Cursor.peek?, h] at _h
  exact Nat.lt_of_lt_of_le (Cursor.length_skipLine_lt hne) (c.length_skipWhile_le isBlank)

/-- Consume the given bytes. -/
def expect (cause : Cause) : List UInt8 → Reader Unit
  | [], c => .ok () c
  | b :: bytes, c =>
    if c.peek? = some b then expect cause bytes c.next else .error (c.error cause) c

end Text

/-- The numbers of variables and clauses that a formula announces. -/
structure Header where
  variableCount : Nat
  clauseCount : Nat
deriving DecidableEq, Repr

/-- The header of a formula: `p cnf` and two numbers, none of them negative. -/
def Header.read : Reader Header := do
  modify skipComments
  expect .header [112, 32, 99, 110, 102]
  skipSome
  let variableCount ← number32
  skipSome
  let clauseCount ← number64
  if variableCount < 0 ∨ clauseCount < 0 then
    throw ((← get).error .header)
  skipSome
  return ⟨variableCount.toNat, clauseCount.toNat⟩

/-- Numbers up to a 0. The literals are those that were read, also if reading failed. -/
def Clause.read (c : Cursor) : Clause × EStateM.Result TextError Cursor Unit :=
  if c.skipBlank.rest = [] then ([], .error (c.skipBlank.error .terminator) c.skipBlank)
  else
    match _h : number32 c.skipBlank with
    | .error e d => ([], .error e d)
    | .ok v d =>
      match _k : skipSome d with
      | .error e d => ([], .error e d)
      | .ok () d =>
        if v = 0 then ([], .ok () d)
        else
          let (literals, ending) := Clause.read d
          (Literal.ofInt v :: literals, ending)
termination_by c.rest.length
decreasing_by
  have h₁ := length_number32_lt _h
  have h₂ := length_skipSome_le _k
  have h₃ := c.length_skipWhile_le isBlank
  simp only [Cursor.skipBlank] at h₁
  omega

theorem Clause.length_read_lt {c d : Cursor} (h : (Clause.read c).2 = .ok () d) :
    d.rest.length < c.rest.length := by
  have hb := c.length_skipWhile_le isBlank
  fun_induction Clause.read c with
  | case1 | case2 | case3 => simp at h
  | case4 c _ _ _ hs hn =>
    simp only [EStateM.Result.ok.injEq, true_and] at h
    subst h
    have h₁ := length_number32_lt hn
    have h₂ := length_skipSome_le hs
    simp only [Cursor.skipBlank] at h₁
    omega
  | case5 c _ _ _ hn e hs _ _ _ hr ih =>
    rw [hr] at ih
    have h₀ := ih h (e.length_skipWhile_le isBlank)
    have h₁ := length_number32_lt hn
    have h₂ := length_skipSome_le hs
    simp only [Cursor.skipBlank] at h₁
    omega

/-- A list of clauses has no deletions; a proof has. -/
inductive Grammar where
  | clauses
  | proof
deriving DecidableEq, Repr

/-- What is missing where a byte starts none of the items of a text. -/
def Grammar.strayCause : Grammar → Cause
  | .clauses => .number
  | .proof => .instruction

/-- The items of a text, and the largest variable seen so far. -/
structure Listing where
  steps : Array Step
  maxVar : Nat
deriving DecidableEq, Repr

namespace Listing

/-- Count the literals of a clause, and store its step if the clause is complete. -/
def take (x : Listing) (c : Clause) (complete : Bool) (step : Clause → Step) : Listing :=
  ⟨if complete then x.steps.push (step c) else x.steps, max x.maxVar (Clause.maxVar c)⟩

/-- Read items to the end of the text or to the first error. -/
def read (g : Grammar) (x : Listing) (c : Cursor) : Listing × Option TextError :=
  match _h : c.skipBlank.rest with
  | [] => (x, none)
  | b :: _ =>
    if b = 99 then read g x c.skipBlank.skipLine
    else if b = 100 ∧ g = .proof then
      match _k : skipSome c.skipBlank.next with
      | .error e _ => (x, some e)
      | .ok () d =>
        match _r : Clause.read d with
        | (literals, .error e _) => (x.take literals false .delete, some e)
        | (literals, .ok () d) => read g (x.take literals true .delete) d
    else if isDigit b || b == dash then
      match _r : Clause.read c.skipBlank with
      | (literals, .error e _) => (x.take literals false .add, some e)
      | (literals, .ok () d) => read g (x.take literals true .add) d
    else (x, some (c.skipBlank.error g.strayCause))
termination_by c.rest.length
decreasing_by
  all_goals
    have hle : c.skipBlank.rest.length ≤ c.rest.length := c.length_skipWhile_le isBlank
    have hne : c.skipBlank.rest ≠ [] := by simp [_h]
  · have := Cursor.length_skipLine_lt hne
    omega
  · have h₁ := Cursor.length_next_lt hne
    have h₂ := length_skipSome_le _k
    have h₃ := Clause.length_read_lt (congrArg Prod.snd _r)
    omega
  · have := Clause.length_read_lt (congrArg Prod.snd _r)
    omega

end Listing
end ClausalProof
