import ClausalProof.Proofs.Trail

set_option autoImplicit false

/-!
A trail as a stack. Literals are pushed, popped and cleared in any order, and each change updates the
order of the literals, the table of truth and the table of positions on its own. After any changes the
two tables say no more and no less than the order does (`Represents`), and the newest push can be taken
back without a trace.
-/
namespace ClausalProof.Trail

inductive Change where
  | push (l : Literal) (reason : Reason)
  | pop
  | clear
deriving DecidableEq, Repr

def change (t : Trail) : Change → Checked Trail
  | .push l reason => t.push l reason
  | .pop => t.pop
  | .clear => t.clear

def changeAll (t : Trail) : List Change → Checked Trail
  | [] => .ok t
  | x :: xs => do (← t.change x).changeAll xs

namespace Change

/-- What a change makes of a stack of entries, oldest first. -/
def after (es : List Entry) : Change → List Entry
  | .push l reason => es ++ [⟨l, reason⟩]
  | .pop => es.dropLast
  | .clear => []

def afterAll (es : List Entry) (xs : List Change) : List Entry := xs.foldl after es

/-- Only a valid literal of the variables up to `n` may be pushed, and only while it is open. -/
def Allowed (n : Nat) (es : List Entry) : Change → Prop
  | .push l _ => l.isValid = true ∧ l.var ≤ n ∧ Open (es.map Entry.literal) l
  | .pop => True
  | .clear => True

instance (n : Nat) (es : List Entry) : (x : Change) → Decidable (x.Allowed n es)
  | .push l _ => inferInstanceAs (Decidable (l.isValid = true ∧ l.var ≤ n ∧ l ∉ _ ∧ -l ∉ _))
  | .pop => .isTrue trivial
  | .clear => .isTrue trivial

/-- Each change is allowed where it is made. -/
def AllowedAll (n : Nat) (es : List Entry) : List Change → Prop
  | [] => True
  | x :: xs => x.Allowed n es ∧ AllowedAll n (x.after es) xs

instance decidableAllowedAll (n : Nat) (es : List Entry) :
    (xs : List Change) → Decidable (AllowedAll n es xs)
  | [] => .isTrue trivial
  | x :: xs =>
    have := decidableAllowedAll n (x.after es) xs
    inferInstanceAs (Decidable (_ ∧ _))

end Change

/-- The tables for the variables up to `n` show the stack `es`. -/
structure Represents (n : Nat) (es : List Entry) (t : Trail) : Prop where
  entries : t.entries.toList = es
  value : ∀ l : Literal, l.var ≤ n → t.value l = .ok (decide (l ∈ es.map Entry.literal))
  assigned : ∀ l : Literal, t.value l = .ok true → (es.map Entry.literal).count l = 1 ∧
    t.value (-l) = .ok false ∧ ∃ i, t.positionOf l = .ok (some i) ∧ es[i]?.map Entry.literal = some l
  unassigned : ∀ l : Literal, t.value l = .ok false → t.position[l.code]? = some none
  size_le : t.size ≤ n

theorem entries_pop {t u : Trail} (h : t.pop = .ok u) : u.entries = t.entries.pop := by
  cases hback : t.entries.back? with
  | none =>
    have hnil : t.entries = #[] := by simpa using hback
    simp only [pop, hback] at h
    cases h
    rw [hnil]
    rfl
  | some e =>
    simp only [pop, hback, Checked.bind_eq_ok, Checked.pure_eq_ok] at h
    obtain ⟨_, _, _, _, rfl⟩ := h
    rfl

theorem setIfInBounds_of_getElem? {α : Type} {xs : Array α} {i : Nat} {x : α} (h : xs[i]? = some x) :
    xs.setIfInBounds i x = xs := by
  apply Array.ext_getElem?
  intro j
  rw [Array.getElem?_setIfInBounds]
  split
  · rename_i hij
    subst hij
    rw [h, if_pos (Array.getElem?_eq_some_iff.1 h).1]
  · rfl

namespace Faithful

variable {n : Nat} {t u : Trail} {l : Literal}

theorem var_le_of_value {b : Bool} (h : t.Faithful n) (hl : t.value l = .ok b) : l.var ≤ n := by
  have hlt := (Array.getElem?_eq_some_iff.1 (Bounded.get_eq_ok.1 hl)).1
  rw [h.truth_size] at hlt
  exact Literal.code_lt_literalSlots.1 hlt

theorem mem_of_value (h : t.Faithful n) (hl : t.value l = .ok true) : l ∈ t.literals := by
  rw [h.value (h.var_le_of_value hl)] at hl
  exact of_decide_eq_true (Except.ok.inj hl)

theorem not_mem_of_value (h : t.Faithful n) (hl : t.value l = .ok false) : l ∉ t.literals := by
  rw [h.value (h.var_le_of_value hl)] at hl
  exact of_decide_eq_false (Except.ok.inj hl)

theorem position_of_not_mem (h : t.Faithful n) (hvar : l.var ≤ n) (hl : l ∉ t.literals) :
    t.position[l.code]? = some none := by
  rw [h.position l hvar, List.idxOf?_eq_none_iff.2 hl]

/-- The position of a listed literal is its place in the order. -/
theorem positionOf (h : t.Faithful n) (hl : t.value l = .ok true) :
    ∃ i, t.positionOf l = .ok (some i) ∧ t.literals[i]? = some l := by
  obtain ⟨i, hi⟩ := Option.isSome_iff_exists.1 (List.isSome_idxOf?.2 (h.mem_of_value hl))
  refine ⟨i, ?_, ?_⟩
  · have hget := Bounded.get_eq_ok.2 (h.position l (h.var_le_of_value hl))
    simp [Trail.positionOf, hl, require, hget, hi, bind, Except.bind]
  · obtain ⟨hlt, hget, _⟩ := List.findIdx?_eq_some_iff_getElem.1 hi
    rw [List.getElem?_eq_getElem hlt, beq_iff_eq.1 hget]

/-- The variables from 1 to `n` have no more than `n` literals that are listed. -/
theorem size_le (h : t.Faithful n) : t.size ≤ n := by
  have hsub : t.literals.map Literal.var ⊆ List.range' 1 n := by
    intro v hv
    obtain ⟨l, hl, rfl⟩ := List.mem_map.1 hv
    have hvalid := (Literal.isValid_iff.1 (h.valid l hl)).1
    have hbound := h.bounded l hl
    rw [List.mem_range'_1]
    omega
  have hle := (h.nodup_vars.subperm hsub).length_le
  rwa [List.length_map, List.length_range', literals_length] at hle

theorem represents (h : t.Faithful n) : t.Represents n t.entries.toList := by
  constructor
  case entries => rfl
  case value => exact fun l hl => h.value hl
  case assigned =>
    intro l hl
    have hmem := h.mem_of_value hl
    obtain ⟨i, hi, hget⟩ := h.positionOf hl
    refine ⟨List.count_eq_one_of_mem h.nodup hmem, ?_, i, hi, ?_⟩
    · have hvar := h.var_le_of_value hl
      rw [h.value (l := -l) hvar, decide_eq_false (h.consistent l hmem)]
    · rw [← List.getElem?_map]
      exact hget
  case unassigned =>
    intro l hl
    exact h.position_of_not_mem (h.var_le_of_value hl) (h.not_mem_of_value hl)
  case size_le => exact h.size_le

/-- Both tables had the entries of an open literal, so taking it back leaves no trace. -/
theorem pop_push {reason : Reason} (h : t.Faithful n) (hu : t.push l reason = .ok u) :
    u.pop = .ok t := by
  obtain ⟨_, hfalse, _, htruth, hposition, rfl⟩ := push_eq_ok.1 hu
  have hunset := h.position_of_not_mem (h.var_le_of_value hfalse) (h.not_mem_of_value hfalse)
  simp [Trail.pop, Bounded.set, htruth, hposition,
    setIfInBounds_of_getElem? (Bounded.get_eq_ok.1 hfalse), setIfInBounds_of_getElem? hunset, bind,
    Except.bind, pure, Except.pure]

/-- What one allowed change does to the order of the literals, and that the tables follow. -/
theorem change {x : Change} (h : t.Faithful n) (hx : x.Allowed n t.entries.toList) :
    ∃ u, t.change x = .ok u ∧ u.Faithful n ∧ u.entries.toList = x.after t.entries.toList := by
  cases x with
  | push l reason =>
    obtain ⟨hvalid, hvar, hopen⟩ := hx
    obtain ⟨u, hu, hfaithful, hentries, _⟩ := h.push reason hvalid hvar hopen
    exact ⟨u, hu, hfaithful, by rw [hentries, Array.toList_push]; rfl⟩
  | pop =>
    obtain ⟨u, hu, hfaithful, _⟩ := h.pop
    exact ⟨u, hu, hfaithful, by rw [entries_pop hu, Array.toList_pop]; rfl⟩
  | clear => exact ⟨.empty n, h.shrinkTo_zero, faithful_empty n, rfl⟩

theorem changeAll {xs : List Change} (h : t.Faithful n)
    (hxs : Change.AllowedAll n t.entries.toList xs) :
    ∃ u, t.changeAll xs = .ok u ∧ u.Faithful n ∧
      u.entries.toList = Change.afterAll t.entries.toList xs := by
  induction xs generalizing t with
  | nil => exact ⟨t, rfl, h, rfl⟩
  | cons x xs ih =>
    obtain ⟨hx, hxs⟩ := hxs
    obtain ⟨u, hu, hfaithful, hentries⟩ := h.change hx
    rw [← hentries] at hxs
    obtain ⟨v, hv, hrest, hlast⟩ := ih hfaithful hxs
    refine ⟨v, ?_, hrest, ?_⟩
    · rw [Trail.changeAll, hu]
      exact hv
    · rw [hlast, hentries]
      rfl

end Faithful

/-- Allowed changes are never refused. The tables show the stack that the changes build up, of at most
    as many literals as there are variables, and pop undoes push in the order and in both tables. -/
theorem changeAll_represents (n : Nat) (xs : List Change) (hxs : Change.AllowedAll n [] xs) :
    ∃ t, (empty n).changeAll xs = .ok t ∧ t.Represents n (Change.afterAll [] xs) ∧
      ∀ l reason, (Change.push l reason).Allowed n (Change.afterAll [] xs) →
        ∃ u, t.push l reason = .ok u ∧ u.pop = .ok t := by
  obtain ⟨t, ht, hfaithful, hentries⟩ := (faithful_empty n).changeAll hxs
  have hstack : t.entries.toList = Change.afterAll [] xs := hentries
  refine ⟨t, ht, hstack ▸ hfaithful.represents, fun l reason hl => ?_⟩
  rw [← hstack] at hl
  obtain ⟨u, hu, _⟩ := hfaithful.change hl
  exact ⟨u, hu, hfaithful.pop_push hu⟩

/-- A literal is pushed again after its negation is gone, and an empty trail is popped. -/
def reusingChanges : List Change :=
  [.push ⟨3, false⟩ .assumed, .push ⟨1, true⟩ (.forced 0), .pop, .push ⟨1, false⟩ (.forced 2), .clear,
    .pop, .push ⟨3, true⟩ .assumed, .push ⟨1, true⟩ (.forced 4)]

theorem changeAll_represents_reusing :
    Change.AllowedAll 3 [] reusingChanges ∧ ∃ t u, (empty 3).changeAll reusingChanges = .ok t ∧
      t.Represents 3 [⟨⟨3, true⟩, .assumed⟩, ⟨⟨1, true⟩, .forced 4⟩] ∧
      t.push ⟨2, false⟩ .assumed = .ok u ∧ u.pop = .ok t := by
  have hallowed : Change.AllowedAll 3 [] reusingChanges := by decide
  obtain ⟨t, ht, hrepresents, hpush⟩ := changeAll_represents 3 reusingChanges hallowed
  obtain ⟨u, hu, hpop⟩ := hpush ⟨2, false⟩ .assumed (by decide)
  exact ⟨hallowed, t, u, ht, hrepresents, hu, hpop⟩

end ClausalProof.Trail
