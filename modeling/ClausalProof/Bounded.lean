import ClausalProof.Fault

/-!
Arrays with checked indices. An index outside the array is a fault; every other operation of
`Array` that cannot go wrong (`push`, `pop`, `take`, `++`) is used as it is.
-/

set_option autoImplicit false

namespace ClausalProof.Bounded

variable {α : Type}

def get (xs : Array α) (i : Nat) : Checked α :=
  match xs[i]? with
  | some x => .ok x
  | none => .error .outOfBounds

def set (xs : Array α) (i : Nat) (x : α) : Checked (Array α) :=
  if i < xs.size then .ok (xs.setIfInBounds i x) else .error .outOfBounds

/-- Take the element at `i` out; later elements move down by one. -/
def remove (xs : Array α) (i : Nat) : Checked (α × Array α) :=
  match xs[i]? with
  | some x => .ok (x, xs.eraseIdxIfInBounds i)
  | none => .error .outOfBounds

/-- Take the element at `i` out; the last element takes its place. -/
def swapRemove (xs : Array α) (i : Nat) : Checked (α × Array α) :=
  match xs[i]?, xs.back? with
  | some x, some last => .ok (x, (xs.setIfInBounds i last).pop)
  | _, _ => .error .outOfBounds

/-- The elements from `start` up to `stop`, without `stop`. -/
def slice (xs : Array α) (start stop : Nat) : Checked (Array α) :=
  if start ≤ stop ∧ stop ≤ xs.size then .ok (xs.extract start stop) else .error .outOfBounds

theorem get_eq_ok {xs : Array α} {i : Nat} {x : α} : get xs i = .ok x ↔ xs[i]? = some x := by
  unfold get
  cases xs[i]? <;> simp

theorem set_eq_ok {xs ys : Array α} {i : Nat} {x : α} :
    set xs i x = .ok ys ↔ i < xs.size ∧ ys = xs.setIfInBounds i x := by
  unfold set
  split
  · rename_i h
    simp [h, eq_comm]
  · rename_i h
    simp [h]

end ClausalProof.Bounded
