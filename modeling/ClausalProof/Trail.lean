import ClausalProof.Bounded
import ClausalProof.Clause

/-!
A partial assignment with the order in which its literals became true. The tables `truth` and
`position` are indexed by the code of a literal; `entries` is the order, oldest first. The measure
`room` counts the free places of `truth`: a successful `push` takes one, so no loop that pushes can
go on forever.
-/

set_option autoImplicit false

namespace ClausalProof

/-- Why a literal is true: by assumption, or since a clause has no other literal left. -/
inductive Reason where
  | assumed
  | forced (id : Nat)
deriving DecidableEq, Repr

/-- The reason that names a clause. -/
def Reason.ofIdentifier (id : Nat) : Checked Reason := do
  require (id ≤ maxIdentifier) .identifierRange
  return .forced id

def Reason.text : Reason → String
  | .assumed => "Assumption"
  | .forced id => "Forced by clause " ++ Decimal.ofNat id

structure Trail.Entry where
  literal : Literal
  reason : Reason
deriving DecidableEq, Repr

structure Trail where
  truth : Array Bool
  position : Array (Option Nat)
  entries : Array Trail.Entry
deriving DecidableEq, Repr

namespace Trail

def empty (maxVar : Nat) : Trail :=
  ⟨.replicate (Literal.literalSlots maxVar) false, .replicate (Literal.literalSlots maxVar) none, #[]⟩

def size (t : Trail) : Nat := t.entries.size

def isEmpty (t : Trail) : Bool := t.entries.isEmpty

def literals (t : Trail) : List Literal := t.entries.toList.map Entry.literal

/-- The largest variable that has a place in the tables. -/
def maxVar (t : Trail) : Nat := t.truth.size / 2 - 1

/-- Whether a literal is true. A literal that is not true is false or unassigned. -/
def value (t : Trail) (l : Literal) : Checked Bool := Bounded.get t.truth l.code

def positionOf (t : Trail) (l : Literal) : Checked (Option Nat) := do
  require (← t.value l) .notAssigned
  Bounded.get t.position l.code

def entry (t : Trail) (i : Nat) : Checked Entry := Bounded.get t.entries i

/-- Make an unassigned literal true. -/
def push (t : Trail) (l : Literal) (reason : Reason) : Checked Trail := do
  require l.isValid .invalidLiteral
  require (!(← t.value l)) .alreadyAssigned
  require (!(← t.value (-l))) .alreadyAssigned
  let truth ← Bounded.set t.truth l.code true
  let position ← Bounded.set t.position l.code (some t.size)
  return ⟨truth, position, t.entries.push ⟨l, reason⟩⟩

def peek? (t : Trail) : Option Entry := t.entries.back?

/-- Undo the newest assignment. -/
def pop (t : Trail) : Checked Trail :=
  match t.entries.back? with
  | none => .ok t
  | some e => do
    let truth ← Bounded.set t.truth e.literal.code false
    let position ← Bounded.set t.position e.literal.code none
    return ⟨truth, position, t.entries.pop⟩

/-- Undo the newest `n` assignments. -/
def unwind (t : Trail) : Nat → Checked Trail
  | 0 => .ok t
  | n + 1 => do (← t.pop).unwind n

/-- Undo assignments until at most `n` are left. -/
def shrinkTo (t : Trail) (n : Nat) : Checked Trail := t.unwind (t.size - n)

def clear (t : Trail) : Checked Trail := t.shrinkTo 0

def text (t : Trail) : String :=
  "Assignment: " ++ Decimal.ofNat t.size ++
    String.join (t.entries.toList.map fun e => " " ++ e.literal.text ++ " (" ++ e.reason.text ++ "),")

/-- Whether some literal is true, reading up to the first one. -/
def satisfies (t : Trail) : Clause → Checked Bool
  | [] => .ok false
  | l :: c => do if ← t.value l then return true else t.satisfies c

def isUnassigned (t : Trail) (l : Literal) : Checked Bool := do
  if ← t.value l then return false else return !(← t.value (-l))

/-- The number of unassigned literals, counting repetitions. -/
def unassignedCount (t : Trail) : Clause → Checked Nat
  | [] => .ok 0
  | l :: c => do
    let free ← t.isUnassigned l
    return (← t.unassignedCount c) + free.toNat

/-- Unit propagation learns nothing from a clause that is satisfied or has two unassigned literals. -/
def isStable (t : Trail) (c : Clause) : Checked Bool := do
  let satisfied ← t.satisfies c
  let free ← t.unassignedCount c
  return satisfied || decide (2 ≤ free)

/-- The only unassigned literal of a clause whose other literals are false. -/
def unitLiteral (t : Trail) (found : Option Literal) : Clause → Checked (Option Literal)
  | [] => .ok found
  | l :: c => do
    if ← t.value l then return none
    if ← t.value (-l) then t.unitLiteral found c
    else if found.isSome then return none
    else t.unitLiteral (some l) c

/-- The oldest clause that has one literal left, with that literal. -/
def nextUnit (t : Trail) : List (Nat × Clause) → Checked (Option (Nat × Literal))
  | [] => .ok none
  | (id, c) :: rest => do
    match ← t.unitLiteral none c with
    | some l => return some (id, l)
    | none => t.nextUnit rest

/-- Free places of the truth table. -/
def room (t : Trail) : Nat := t.truth.toList.count false

theorem count_false_set (xs : List Bool) (i : Nat) (h : xs[i]? = some false) :
    (xs.set i true).count false + 1 = xs.count false := by
  induction xs generalizing i with
  | nil => simp at h
  | cons b xs ih =>
    cases i with
    | zero => simp at h; subst h; simp
    | succ i =>
      have := ih i (by simpa using h)
      cases b <;> simp <;> omega

theorem push_eq_ok {t u : Trail} {l : Literal} {reason : Reason} :
    t.push l reason = .ok u ↔
      l.isValid = true ∧ t.value l = .ok false ∧ t.value (-l) = .ok false ∧
      l.code < t.truth.size ∧ l.code < t.position.size ∧
      u = ⟨t.truth.setIfInBounds l.code true, t.position.setIfInBounds l.code (some t.size),
        t.entries.push ⟨l, reason⟩⟩ := by
  simp only [push, Checked.bind_eq_ok, Checked.pure_eq_ok, require_eq_ok, Bounded.set_eq_ok]
  constructor
  · rintro ⟨_, hv, p, hp, _, hp', q, hq, _, hq', truth, ⟨ht, rfl⟩, position, ⟨hs, rfl⟩, rfl⟩
    simp at hp' hq'
    subst hp' hq'
    exact ⟨hv, hp, hq, ht, hs, rfl⟩
  · rintro ⟨hv, hp, hq, ht, hs, rfl⟩
    exact ⟨(), hv, false, hp, (), rfl, false, hq, (), rfl, _, ⟨ht, rfl⟩, _, ⟨hs, rfl⟩, rfl⟩

theorem push_room {t u : Trail} {l : Literal} {reason : Reason} (h : t.push l reason = .ok u) :
    u.room + 1 = t.room := by
  obtain ⟨_, hf, _, _, _, rfl⟩ := push_eq_ok.1 h
  simpa [room] using count_false_set t.truth.toList l.code (by simpa using Bounded.get_eq_ok.1 hf)

theorem push_size {t u : Trail} {l : Literal} {reason : Reason} (h : t.push l reason = .ok u) :
    u.size = t.size + 1 := by
  obtain ⟨_, _, _, _, _, rfl⟩ := push_eq_ok.1 h
  simp [size]

/-- Assign the literal of the oldest unit clause, again and again, until no clause is unit. -/
def saturate (t : Trail) (clauses : List (Nat × Clause)) : Checked Trail :=
  match t.nextUnit clauses with
  | .error fault => .error fault
  | .ok none => .ok t
  | .ok (some (id, l)) =>
    match _h : t.push l (.forced id) with
    | .error fault => .error fault
    | .ok u => u.saturate clauses
termination_by t.room
decreasing_by
  have := push_room _h
  omega

end Trail
end ClausalProof
