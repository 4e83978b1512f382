import ClausalProof.Engine

/-!
Unit propagation. The trail entries are taken in order; for each one, the clauses that watch its
negation are visited in the order of their list. A visited clause is left alone if its other watch
is true, moves to another list if it has a literal that is not false, and otherwise forces its other
watch or is a conflict. The order of visits, and so of the trail, is determined: a clause that moves
away is replaced in its list by the last one, and joins its new list at the end.
-/

set_option autoImplicit false

namespace ClausalProof

/-- Whether an assignment or a propagation ran into a conflict. -/
inductive Progress where
  | conflict
  | quiet
deriving DecidableEq, Repr

namespace Engine

/-- Make a literal true, unless it is true already. -/
def assign (e : Engine) (l : Literal) (reason : Reason) : Checked (Engine × Progress) := do
  if ← e.trail.value (-l) then return (e, .conflict)
  if ← e.trail.value l then return (e, .quiet)
  return ({ e with trail := ← e.trail.push l reason }, .quiet)

/-- Make the literals of some clauses of one literal true. -/
def assignUnits (e : Engine) : List Nat → Checked (Engine × Progress)
  | [] => .ok (e, .quiet)
  | id :: ids => do
    let l ← literalAt (← e.store.clause id) 0
    match ← e.assign l (.forced id) with
    | (e, .conflict) => return (e, .conflict)
    | (e, .quiet) => e.assignUnits ids

/-- The first position that is not watched and whose literal is not false. -/
def replacement (t : Trail) (w : Watch) (i : Nat) : Clause → Checked (Option (Nat × Literal))
  | [] => .ok none
  | l :: c => do
    if i = w.first ∨ i = w.second then replacement t w (i + 1) c
    else if ← t.value (-l) then replacement t w (i + 1) c
    else return some (i, l)

/-- What becomes of a visited clause in the list that is being visited. -/
inductive Visit where
  | stays
  | leaves
  | conflict
deriving DecidableEq, Repr

/-- Visit the clause at place `i` of the list of the false literal `l`. -/
def visit (e : Engine) (l : Literal) (i : Nat) : Checked (Engine × Visit) := do
  let row ← e.watchersOf l
  let id ← Bounded.get row i
  let c ← e.store.clause id
  let w ← Bounded.get e.watches id
  let a ← literalAt c w.first
  let b ← literalAt c w.second
  require (a == l || b == l) .brokenWatch
  let other := if a = l then b else a
  if ← e.trail.value other then return (e, .stays)
  match ← replacement e.trail w 0 c with
  | some (j, m) =>
    let watches ← Bounded.set e.watches id (if a = l then ⟨j, w.second⟩ else ⟨w.first, j⟩)
    let (_, row) ← Bounded.swapRemove row i
    let watchers ← Bounded.set e.watchers l.code row
    let watchers ← watch watchers m id
    return ({ e with watches := watches, watchers := watchers }, .leaves)
  | none =>
    if ← e.trail.value (-other) then return (e, .conflict)
    return ({ e with trail := ← e.trail.push other (.forced id) }, .stays)

/-- Visit the clauses from place `i` of the list of the false literal `l`, which are `n`: none may
    join this list meanwhile. -/
def visitAll (e : Engine) (l : Literal) (i : Nat) : Nat → Checked (Engine × Progress)
  | 0 => do
    require ((← e.watchersOf l).size == i) .brokenWatch
    return (e, .quiet)
  | n + 1 => do
    match ← e.visit l i with
    | (e, .stays) => e.visitAll l (i + 1) n
    | (e, .leaves) => e.visitAll l i n
    | (e, .conflict) => return (e, .conflict)

/-- Draw the consequences of the oldest trail entry that has not been processed. -/
def processNext (e : Engine) : Checked (Engine × Progress) := do
  let l := -(← e.trail.entry e.processed).literal
  let row ← e.watchersOf l
  { e with processed := e.processed + 1 }.visitAll l 0 row.size

/-- Trail entries that are still to be processed, counting those still to come. -/
def pending (e : Engine) : Nat := e.trail.room + e.trail.size - e.processed

/-- One assignment more is one free place less. -/
def Ahead (e f : Engine) : Prop :=
  f.processed = e.processed ∧ f.trail.room + f.trail.size = e.trail.room + e.trail.size

theorem Ahead.trans {e f g : Engine} (h : Ahead e f) (k : Ahead f g) : Ahead e g :=
  ⟨k.1.trans h.1, k.2.trans h.2⟩

theorem visit_ahead {e f : Engine} {l : Literal} {i : Nat} {v : Visit}
    (h : e.visit l i = .ok (f, v)) : Ahead e f := by
  simp only [visit, Checked.bind_eq_ok] at h
  obtain ⟨row, _, id, _, c, _, w, _, a, _, b, _, _, _, held, _, h⟩ := h
  split at h
  · simp only [Checked.pure_eq_ok, Prod.mk.injEq] at h
    obtain ⟨rfl, _⟩ := h
    exact ⟨rfl, rfl⟩
  · simp only [Checked.bind_eq_ok] at h
    obtain ⟨r, _, h⟩ := h
    split at h
    · simp only [Checked.bind_eq_ok, Checked.pure_eq_ok, Prod.mk.injEq] at h
      obtain ⟨_, _, _, _, _, _, _, _, rfl, _⟩ := h
      exact ⟨rfl, rfl⟩
    · simp only [Checked.bind_eq_ok] at h
      obtain ⟨n, _, h⟩ := h
      split at h
      · simp only [Checked.pure_eq_ok, Prod.mk.injEq] at h
        obtain ⟨rfl, _⟩ := h
        exact ⟨rfl, rfl⟩
      · simp only [Checked.bind_eq_ok, Checked.pure_eq_ok, Prod.mk.injEq] at h
        obtain ⟨t, ht, rfl, _⟩ := h
        have hr := Trail.push_room ht
        have hs := Trail.push_size ht
        exact ⟨rfl, by simp only; omega⟩

theorem visitAll_ahead {e f : Engine} {l : Literal} {i n : Nat} {p : Progress}
    (h : e.visitAll l i n = .ok (f, p)) : Ahead e f := by
  induction n generalizing e i with
  | zero =>
    simp only [visitAll, Checked.bind_eq_ok, Checked.pure_eq_ok, Prod.mk.injEq] at h
    obtain ⟨_, _, _, _, rfl, _⟩ := h
    exact ⟨rfl, rfl⟩
  | succ n ih =>
    simp only [visitAll, Checked.bind_eq_ok] at h
    obtain ⟨⟨g, v⟩, hv, h⟩ := h
    have hg := visit_ahead hv
    cases v with
    | stays => exact hg.trans (ih h)
    | leaves => exact hg.trans (ih h)
    | conflict =>
      simp only [Checked.pure_eq_ok, Prod.mk.injEq] at h
      exact h.1 ▸ hg

theorem processNext_ahead {e f : Engine} {p : Progress} (h : e.processNext = .ok (f, p)) :
    f.processed = e.processed + 1 ∧
      f.trail.room + f.trail.size = e.trail.room + e.trail.size := by
  simp only [processNext, Checked.bind_eq_ok] at h
  obtain ⟨_, _, _, _, h⟩ := h
  exact visitAll_ahead h

/-- Draw consequences until there is a conflict or nothing is left to process. -/
def propagate (e : Engine) : Checked (Engine × Progress) :=
  if e.processed < e.trail.size then
    match _h : e.processNext with
    | .error fault => .error fault
    | .ok (f, .conflict) => .ok (f, .conflict)
    | .ok (f, .quiet) => f.propagate
  else .ok (e, .quiet)
termination_by e.pending
decreasing_by
  have := processNext_ahead _h
  unfold pending
  omega

end Engine
end ClausalProof
