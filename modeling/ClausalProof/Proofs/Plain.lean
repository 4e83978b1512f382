import ClausalProof.Proofs.Closure
import ClausalProof.Session

set_option autoImplicit false

/-!
A checker that keeps nothing but the list of live clauses, oldest first and each without repeated
literals. It propagates by scanning that list from its start after every literal. The scan decides
whether there is a clash, and without one it ends in the closure itself.
-/
namespace ClausalProof.Plain

/-- What a clause tells an assignment. -/
inductive Finding where
  | conflict
  | unit (l : Literal)
  | nothing
deriving DecidableEq, Repr

def Finding.literal? : Finding → Option Literal
  | .unit l => some l
  | _ => none

/-- All literals are false, or all but one open literal, or neither. -/
def inspect (T : List Literal) (c : Clause) : Finding :=
  if c.any (T.contains ·) then .nothing
  else
    match c.filter fun l => !T.contains (-l) with
    | [] => .conflict
    | [l] => .unit l
    | _ => .nothing

/-- The finding of the oldest clause that has one. -/
def scan (T : List Literal) : List Clause → Finding
  | [] => .nothing
  | c :: cs =>
    match inspect T c with
    | .nothing => scan T cs
    | finding => finding

theorem inspect_unit {T : List Literal} {c : Clause} {l : Literal} (h : inspect T c = .unit l) :
    l ∈ c ∧ Open T l ∧ ∀ m ∈ c, m ≠ l → -m ∈ T := by
  unfold inspect at h
  split at h
  · simp at h
  · rename_i hfalse
    have hT : ∀ m ∈ c, m ∉ T := by simpa using hfalse
    split at h
    · simp at h
    · rename_i l' hl'
      obtain rfl : l' = l := by simpa using h
      have hmem : ∀ m, m ∈ c ∧ -m ∉ T ↔ m = l' := by
        intro m
        have hm : m ∈ c.filter (fun l => !T.contains (-l)) ↔ m = l' := by
          rw [hl', List.mem_singleton]
        simpa using hm
      obtain ⟨hlc, hlT⟩ := (hmem l').2 rfl
      refine ⟨hlc, ⟨hT l' hlc, hlT⟩, ?_⟩
      intro m hm hne
      by_contra hnT
      exact hne ((hmem m).1 ⟨hm, hnT⟩)
    · simp at h

theorem inspect_conflict {T : List Literal} {c : Clause} (h : inspect T c = .conflict) :
    ∀ l ∈ c, -l ∈ T := by
  unfold inspect at h
  split at h
  · simp at h
  · split at h
    · rename_i hnil
      simpa using hnil
    · simp at h
    · simp at h

theorem inspect_nothing {T : List Literal} {c : Clause} (hc : c.Nodup)
    (h : inspect T c = .nothing) : Stable T c := by
  unfold inspect at h
  split at h
  · rename_i htrue
    exact .inl (by simpa using htrue)
  · rename_i hfalse
    have hT : ∀ m ∈ c, m ∉ T := by simpa using hfalse
    have hlen : 2 ≤ c.countP fun l => !T.contains (-l) := by
      rw [List.countP_eq_length_filter]
      generalize c.filter (fun l => !T.contains (-l)) = free at h
      match free with
      | [] => simp at h
      | [_] => simp at h
      | _ :: _ :: _ => simp
    obtain ⟨l, hl, m, hm, hne, hlo, hmo⟩ := (Clause.two_le_countP hc _).1 hlen
    exact .inr ⟨l, hl, m, hm, hne, ⟨hT l hl, by simpa using hlo⟩, ⟨hT m hm, by simpa using hmo⟩⟩

theorem exists_of_scan {T : List Literal} {cs : List Clause} {r : Finding} (h : scan T cs = r)
    (hr : r ≠ .nothing) : ∃ c ∈ cs, inspect T c = r := by
  induction cs with
  | nil => exact absurd h.symm hr
  | cons c cs ih =>
    rw [scan] at h
    split at h
    · obtain ⟨d, hd, hl⟩ := ih h
      exact ⟨d, List.mem_cons_of_mem _ hd, hl⟩
    · exact ⟨c, List.mem_cons_self, h⟩

theorem scan_nothing {T : List Literal} {cs : List Clause} (h : scan T cs = .nothing) :
    ∀ c ∈ cs, inspect T c = .nothing := by
  induction cs with
  | nil => simp
  | cons c cs ih =>
    rw [scan] at h
    split at h
    · rename_i hc
      intro d hd
      rcases List.mem_cons.1 hd with rfl | hd
      · exact hc
      · exact ih h d hd
    · rename_i hc
      exact absurd h hc

/-- The literals of the clauses that are not assigned yet, with repetitions. -/
def unassigned (cs : List Clause) (T : List Literal) : List Literal :=
  cs.flatten.filter fun l => !T.contains l

theorem unassigned_append_lt {cs : List Clause} {T : List Literal} {c : Clause} {l : Literal}
    (hc : c ∈ cs) (hl : l ∈ c) (hT : l ∉ T) :
    (unassigned cs (T ++ [l])).length < (unassigned cs T).length := by
  have hsplit : unassigned cs (T ++ [l]) = (unassigned cs T).filter (· != l) := by
    rw [unassigned, unassigned, List.filter_filter]
    congr 1
    funext m
    by_cases hm : m = l <;> simp [hm]
  have hmem : l ∈ unassigned cs T := by
    simp only [unassigned, List.mem_filter, List.mem_flatten]
    exact ⟨⟨c, hc, hl⟩, by simpa using hT⟩
  rw [hsplit]
  exact List.length_filter_lt_length_iff_exists.2 ⟨l, hmem, by simp⟩

/-- Assign what the oldest clause with a finding says, again and again. There is no result if it
    says that there is a conflict. -/
def propagate (cs : List Clause) (T : List Literal) : Option (List Literal) :=
  match _h : scan T cs with
  | .conflict => none
  | .nothing => some T
  | .unit l => propagate cs (T ++ [l])
termination_by (unassigned cs T).length
decreasing_by
  obtain ⟨c, hc, hl⟩ := exists_of_scan _h (by simp)
  obtain ⟨hlc, hopen, _⟩ := inspect_unit hl
  exact unassigned_append_lt hc hlc hopen.1

/-- Where propagation comes to rest when all literals of `c` are false; no result if it does not,
    and so `c` is implied. -/
def rest? (cs : List Clause) (c : Clause) : Option (List Literal) :=
  let T := c.opposites.eraseDups
  if T.any fun l => T.contains (-l) then none else propagate cs T

/-- A clause whose resolvent with `c` on `p` is neither a tautology nor implied, and where
    propagation of the negated resolvent comes to rest. -/
def unresolvedWith? (cs : List Clause) (c : Clause) (p : Literal) (d : Clause) :
    Option (Clause × List Literal) :=
  if (Clause.resolve c p d).isTautology then none
  else (rest? cs (Clause.resolve c p d)).map fun chain => (d, chain)

/-- The oldest such clause among those with `-p`. -/
def unresolved? (cs : List Clause) (c : Clause) (p : Literal) : Option (Clause × List Literal) :=
  (cs.filter (·.contains (-p))).findSome? (unresolvedWith? cs c p)

/-- The evidence against adding a clause; no result if the clause is redundant. -/
def objection? (cs : List Clause) (c : Clause) : Option (RupFailure × Option RatFailure) :=
  match rest? cs c with
  | none => none
  | some chain =>
    match c with
    | [] => some (⟨c, chain⟩, none)
    | p :: _ =>
      (unresolved? cs c p).map fun (d, resolventChain) =>
        (⟨c, chain⟩, some ⟨c, d, ⟨c, resolventChain⟩⟩)

def sameLiterals (c d : Clause) : Bool := c.all (d.contains ·) && d.all (c.contains ·)

/-- Delete the oldest clause with the same literals, if there is one. -/
def delete (cs : List Clause) (c : Clause) : List Clause := cs.eraseP (sameLiterals c)

/-- Add a clause, keeping the first occurrence of each literal. -/
def add (cs : List Clause) (c : Clause) : List Clause := cs ++ [c.eraseDups]

/-- Check the steps from number `i`, after the clauses of `accepted` have been added. -/
def advance (mode : Mode) (cs accepted : List Clause) (i : Nat) : Proof → Verdict
  | [] =>
    match mode with
    | .derivation => .valid
    | .full => ⟨.invalid, none, some accepted, none, none⟩
  | .delete c :: p => advance mode (delete cs c) accepted (i + 1) p
  | .add c :: p =>
    match objection? cs c with
    | some (rup, rat) => ⟨.invalid, some i, some accepted, some rup, rat⟩
    | none =>
      if c = [] ∧ mode = .full then .valid
      else advance mode (add cs c) (accepted ++ [c]) (i + 1) p

def check (f : Formula) (p : Proof) (mode : Mode) : Verdict :=
  advance mode (f.map List.eraseDups) [] 1 p

/-- A consistent assignment between the assumptions and their closure. -/
structure Between (cs : List Clause) (A T : List Literal) : Prop where
  given : ∀ l ∈ A, l ∈ T
  forced : ∀ l ∈ T, Forced cs A l
  consistent : Consistent T
  nodup : T.Nodup

variable {cs : List Clause} {A T U : List Literal}

theorem Between.append {c : Clause} {l : Literal} (h : Between cs A T) (hc : c ∈ cs)
    (hl : inspect T c = .unit l) : Between cs A (T ++ [l]) := by
  obtain ⟨hlc, hopen, hfalse⟩ := inspect_unit hl
  refine ⟨fun m hm => List.mem_append_left _ (h.given m hm), ?_, h.consistent.append hopen, ?_⟩
  · intro m hm
    rcases List.mem_append.1 hm with hm | hm
    · exact h.forced m hm
    · obtain rfl := List.mem_singleton.1 hm
      exact .unit hc hlc fun n hn hne => h.forced _ (hfalse n hn hne)
  · rw [List.nodup_append]
    refine ⟨h.nodup, List.nodup_singleton l, ?_⟩
    rintro m hm n hn rfl
    exact hopen.1 (List.mem_singleton.1 hn ▸ hm)

theorem clash_of_propagate (h : Between cs A T) (hp : propagate cs T = none) : Clash cs A := by
  fun_induction propagate cs T with
  | case1 T hscan =>
    obtain ⟨c, hc, hl⟩ := exists_of_scan hscan (by simp)
    exact .of_falsified hc fun l hlc => h.forced _ (inspect_conflict hl l hlc)
  | case2 T hscan => simp at hp
  | case3 T l hscan ih =>
    obtain ⟨c, hc, hl⟩ := exists_of_scan hscan (by simp)
    exact ih (h.append hc hl) hp

theorem rests_of_propagate (hcs : ∀ c ∈ cs, c.Nodup) (h : Between cs A T)
    (hp : propagate cs T = some U) : Between cs A U ∧ Rests cs A U := by
  fun_induction propagate cs T with
  | case1 T hscan => simp at hp
  | case2 T hscan =>
    obtain rfl : T = U := by simpa using hp
    refine ⟨h, h.given, h.consistent, ?_⟩
    intro c hc
    exact inspect_nothing (hcs c hc) (scan_nothing hscan c hc)
  | case3 T l hscan ih =>
    obtain ⟨c, hc, hl⟩ := exists_of_scan hscan (by simp)
    exact ih (h.append hc hl) hp

theorem rest?_eq_some_iff {c : Clause} :
    rest? cs c = some U ↔
      Consistent c.opposites ∧ propagate cs c.opposites.eraseDups = some U := by
  have hany : (c.opposites.eraseDups.any fun l => c.opposites.eraseDups.contains (-l)) = true ↔
      ¬ Consistent c.opposites := by
    simp [Consistent, List.mem_eraseDups]
  unfold rest?
  dsimp only
  split
  · rename_i hboth
    simp [hany.1 hboth]
  · rename_i hfree
    simp [not_not.1 (mt hany.2 hfree)]

theorem between_opposites {c : Clause} (h : Consistent c.opposites) :
    Between cs c.opposites c.opposites.eraseDups := by
  refine ⟨fun l hl => List.mem_eraseDups.2 hl, fun l hl => .given (List.mem_eraseDups.1 hl), ?_,
    Clause.nodup_eraseDups _⟩
  intro l hl hn
  exact h l (List.mem_eraseDups.1 hl) (List.mem_eraseDups.1 hn)

theorem rests_of_rest? {c : Clause} (hcs : ∀ d ∈ cs, d.Nodup) (h : rest? cs c = some U) :
    Between cs c.opposites U ∧ Rests cs c.opposites U := by
  obtain ⟨hcons, hp⟩ := rest?_eq_some_iff.1 h
  exact rests_of_propagate hcs (between_opposites hcons) hp

/-- Propagation comes upon the literals of the clauses and the opposites of those of `c`. -/
theorem forall_mem_rest? {P : Literal → Prop} {c : Clause} (hcs : ∀ d ∈ cs, d.Nodup)
    (h : rest? cs c = some U) (hneg : ∀ l, P (-l) → P l) (hP : ∀ d ∈ cs, ∀ l ∈ d, P l)
    (hc : ∀ l ∈ c, P l) : ∀ l ∈ U, P l := by
  intro l hl
  rcases ((rests_of_rest? hcs h).1.forced l hl).mem with hl | ⟨d, hd, hl⟩
  · exact hneg l (hc (-l) (Clause.mem_opposites.1 hl))
  · exact hP d hd l hl

theorem rest?_eq_none_iff {c : Clause} (hcs : ∀ d ∈ cs, d.Nodup) :
    rest? cs c = none ↔ Clash cs c.opposites := by
  constructor
  · intro h
    by_cases hcons : Consistent c.opposites
    · cases hp : propagate cs c.opposites.eraseDups with
      | none => exact clash_of_propagate (between_opposites hcons) hp
      | some U =>
        rw [rest?_eq_some_iff.2 ⟨hcons, hp⟩] at h
        cases h
    · simp only [Consistent, not_forall, not_not] at hcons
      obtain ⟨l, hl, hn⟩ := hcons
      exact .inr ⟨l, .given hl, .given hn⟩
  · intro h
    cases hr : rest? cs c with
    | none => rfl
    | some U => exact absurd h (rests_of_rest? hcs hr).2.not_clash

theorem clash_of_unresolved? {c : Clause} {p : Literal} (hcs : ∀ d ∈ cs, d.Nodup)
    (h : unresolved? cs c p = none) {d : Clause} (hd : d ∈ cs) (hp : -p ∈ d) :
    (Clause.resolve c p d).isTautology = true ∨ Clash cs (Clause.resolve c p d).opposites := by
  have hmem : d ∈ cs.filter (·.contains (-p)) := List.mem_filter.2 ⟨hd, by simpa using hp⟩
  have hnone := List.findSome?_eq_none_iff.1 h d hmem
  rw [unresolvedWith?] at hnone
  by_cases htaut : (Clause.resolve c p d).isTautology = true
  · exact .inl htaut
  · rw [if_neg htaut, Option.map_eq_none_iff] at hnone
    exact .inr ((rest?_eq_none_iff hcs).1 hnone)

theorem rest?_of_unresolved? {c d : Clause} {p : Literal} (h : unresolved? cs c p = some (d, U)) :
    d ∈ cs ∧ -p ∈ d ∧ (Clause.resolve c p d).isTautology = false ∧
      rest? cs (Clause.resolve c p d) = some U := by
  obtain ⟨e, he, hsome⟩ := List.exists_of_findSome?_eq_some h
  obtain ⟨hmem, hp⟩ := List.mem_filter.1 he
  rw [unresolvedWith?] at hsome
  by_cases htaut : (Clause.resolve c p e).isTautology = true
  · rw [if_pos htaut] at hsome
    cases hsome
  · rw [if_neg htaut] at hsome
    obtain ⟨V, hV, heq⟩ := Option.map_eq_some_iff.1 hsome
    cases heq
    exact ⟨hmem, by simpa using hp, by simpa using htaut, hV⟩

end ClausalProof.Plain
