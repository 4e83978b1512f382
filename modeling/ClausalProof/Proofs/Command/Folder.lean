import ClausalProof.Command.Folder

set_option autoImplicit false

/-!
Writing a file leaves the others as they are. A name is followed through folders only, and a file
can be written only where there is no folder, so the way to another file never leads through the
place that is written to.
-/
namespace ClausalProof.Command

theorem bind_eq_ok {ε α β : Type} {x : Except ε α} {g : α → Except ε β} {b : β} :
    (x >>= g) = .ok b ↔ ∃ a, x = .ok a ∧ g a = .ok b := by
  cases x <;> simp [bind, Except.bind]

namespace Folder

variable {f : Folder} {p q place : Place} {part : String} {parts : List String}

/-- The folders around a place are there. -/
def Surrounds (f : Folder) (p : Place) : Prop :=
  ∀ r, r <+: p → r ≠ p → f.node? r = some .directory

theorem surrounds_start (f : Folder) (name : String) : f.Surrounds (Place.start name) := by
  intro r hr hne
  have hnil : r = [] := by
    unfold Place.start at hr hne
    split at hr
    · rename_i hroot
      rw [if_pos hroot] at hne
      have hlen := hr.length_le
      rcases r with _ | ⟨_, _ | _⟩
      · rfl
      · exact absurd (hr.eq_of_length rfl) hne
      · simp [Place.root] at hlen
    · exact List.prefix_nil.1 hr
  subst hnil
  rfl

theorem Surrounds.snoc (h : f.Surrounds p) (hp : f.node? p = some .directory) :
    f.Surrounds (p ++ [part]) := by
  intro r hr hne
  rcases List.prefix_concat_iff.1 hr with heq | hr
  · exact absurd heq hne
  · by_cases heq : r = p
    · rw [heq]
      exact hp
    · exact h r hr heq

theorem Surrounds.step (h : f.Surrounds p) (hp : f.node? p = some .directory) (part : String) :
    f.Surrounds (p.step part) := by
  unfold Place.step
  split
  · exact h
  · split
    · unfold Place.parent
      split
      · rename_i hroot
        exact hroot ▸ h
      · split
        · exact h.snoc hp
        · intro r hr hne
          refine h r (hr.trans p.dropLast_prefix) fun heq => hne ?_
          subst heq
          have hlen := hr.length_le
          rw [List.length_dropLast] at hlen
          have hnil : r = [] := List.eq_nil_of_length_eq_zero (by omega)
          rw [hnil]
          rfl
    · exact h.snoc hp

theorem checkFolder_eq_ok {u : Unit} : f.checkFolder p = .ok u ↔ f.node? p = some .directory := by
  unfold checkFolder
  split <;> simp_all

theorem enter_eq_ok : f.enter p part = .ok q ↔
    f.node? p = some .directory ∧ part.utf8ByteSize ≤ maxPart ∧ p.step part = q := by
  simp only [enter, bind_eq_ok, checkFolder_eq_ok, exists_const]
  refine and_congr_right fun _ => ?_
  split
  · simp
    omega
  · simp
    omega

theorem follow_cons : f.follow p (part :: parts) = .ok q ↔
    ∃ r, f.enter p part = .ok r ∧ f.follow r parts = .ok q := by
  rw [follow, List.foldlM_cons, bind_eq_ok]
  rfl

theorem follow_eq_ok (h : f.follow p parts = .ok q) (hp : f.Surrounds p) :
    f.Surrounds q ∧ q = parts.foldl Place.step p := by
  induction parts generalizing p with
  | nil =>
    cases h
    exact ⟨hp, rfl⟩
  | cons part parts ih =>
    obtain ⟨r, hr, h⟩ := follow_cons.1 h
    obtain ⟨hfolder, _, rfl⟩ := enter_eq_ok.1 hr
    exact ih h (hp.step hfolder part)

theorem placeFor_eq_ok {name : String} (h : f.placeFor name = .ok place) :
    f.Surrounds place ∧ f.node? place ≠ some .directory := by
  obtain ⟨_, _, h⟩ := bind_eq_ok.1 h
  obtain ⟨around, haround, h⟩ := bind_eq_ok.1 h
  obtain ⟨_, _, h⟩ := bind_eq_ok.1 h
  by_cases hslash : withoutSlashes name ≠ name
  · rw [if_pos hslash] at h
    cases h
  rw [if_neg hslash] at h
  obtain ⟨p, hp, h⟩ := bind_eq_ok.1 h
  by_cases hnode : f.node? p = some .directory
  · rw [if_pos hnode] at h
    cases h
  rw [if_neg hnode] at h
  cases h
  obtain ⟨hfolder, _, rfl⟩ := enter_eq_ok.1 hp
  have hsurrounds := (follow_eq_ok haround (f.surrounds_start name)).1
  exact ⟨hsurrounds.step hfolder _, hnode⟩

theorem find_eq_ok {name : String} {node : Node} : f.find name = .ok node ↔ checkName name = .ok () ∧
    ∃ q, f.follow (.start name) (name.splitOn "/") = .ok q ∧ f.node? q = some node ∧
      node ≠ .directory := by
  simp only [find, bind_eq_ok]
  constructor
  · rintro ⟨_, hname, q, hq, h⟩
    refine ⟨hname, q, hq, ?_⟩
    rcases hnode : f.node? q with _ | found
    · simp [hnode] at h
    · cases found <;> simp [hnode] at h <;> subst h <;> simp
  · rintro ⟨hname, q, hq, hnode, hkind⟩
    refine ⟨(), hname, q, hq, ?_⟩
    rw [hnode]
    cases node <;> first | rfl | contradiction

theorem lookup_filter {nodes : List (Place × Node)} (hp : p ≠ place) :
    (nodes.filter (·.1 != place)).lookup p = nodes.lookup p := by
  induction nodes with
  | nil => rfl
  | cons node nodes ih =>
    by_cases hnode : node.1 = place
    · have hother : (p == node.1) = false := by
        rw [hnode]
        exact beq_false_of_ne hp
      rw [List.filter_cons_of_neg (by simp [hnode]), ih, List.lookup_cons, hother]
    · rw [List.filter_cons_of_pos (by simp [hnode]), List.lookup_cons, List.lookup_cons, ih]

theorem any_put (bytes : List UInt8) : (f.put place bytes).nodes.any (p.isPrefixOf ·.1) =
    (p.isPrefixOf place || f.nodes.any (p.isPrefixOf ·.1)) := by
  rw [Bool.eq_iff_iff]
  simp only [put, List.any_cons, Bool.or_eq_true, List.any_eq_true, List.mem_filter, bne_iff_ne]
  constructor
  · rintro (hplace | ⟨node, ⟨hnode, _⟩, hp⟩)
    · exact .inl hplace
    · exact .inr ⟨node, hnode, hp⟩
  · rintro (hplace | ⟨node, hnode, hp⟩)
    · exact .inl hplace
    · by_cases heq : node.1 = place
      · exact .inl (heq ▸ hp)
      · exact .inr ⟨node, ⟨hnode, heq⟩, hp⟩

theorem node?_eq (f : Folder) (p : Place) : f.node? p =
    if p.all (· == "..") || p == Place.root then some .directory
    else ((system.lookup p).or (f.nodes.lookup p)).or
      (if system.any (p.isPrefixOf ·.1) || f.nodes.any (p.isPrefixOf ·.1) then some .directory
        else none) := by
  rw [← List.lookup_append, ← List.any_append, node?]
  dsimp only
  cases (system ++ f.nodes).lookup p <;> rfl

/-- A new file changes what is at its own place only. -/
theorem node?_put (h : f.Surrounds place) (hp : p ≠ place) (bytes : List UInt8) :
    (f.put place bytes).node? p = f.node? p := by
  have hlookup : (f.put place bytes).nodes.lookup p = f.nodes.lookup p := by
    have hother : (p == place) = false := beq_false_of_ne hp
    rw [put, List.lookup_cons, hother]
    exact lookup_filter hp
  rw [node?_eq, hlookup, any_put]
  by_cases hbelow : p.isPrefixOf place = true
  · -- `p` is around the new file, so it was a folder before
    have hfolder := h p (List.isPrefixOf_iff_prefix.1 hbelow) hp
    rw [hfolder, hbelow, Bool.true_or, Bool.or_true]
    rw [node?_eq] at hfolder
    split
    · rfl
    · rename_i hinside
      rw [if_neg hinside] at hfolder
      cases hnode : (system.lookup p).or (f.nodes.lookup p) with
      | none => rfl
      | some node =>
        rw [hnode] at hfolder
        exact hfolder
  · rw [node?_eq f, Bool.eq_false_iff.2 hbelow, Bool.false_or]

theorem follow_put (h : f.Surrounds place) (hplace : f.node? place ≠ some .directory)
    (hfollow : f.follow p parts = .ok q) (bytes : List UInt8) :
    (f.put place bytes).follow p parts = .ok q := by
  induction parts generalizing p with
  | nil => exact hfollow
  | cons part parts ih =>
    obtain ⟨r, hr, hfollow⟩ := follow_cons.1 hfollow
    obtain ⟨hfolder, hshort, rfl⟩ := enter_eq_ok.1 hr
    have hne : p ≠ place := fun heq => hplace (heq ▸ hfolder)
    have henter := enter_eq_ok.2 ⟨(node?_put h hne bytes).trans hfolder, hshort, rfl⟩
    exact follow_cons.2 ⟨_, henter, ih hfollow⟩

/-- Another file is found as before. -/
theorem find_put {name other : String} {node : Node} (h : f.placeFor name = .ok place)
    (hother : Place.ofName other ≠ place) (hfind : f.find other = .ok node) (bytes : List UInt8) :
    (f.put place bytes).find other = .ok node := by
  obtain ⟨hplace, hfile⟩ := placeFor_eq_ok h
  obtain ⟨hname, q, hfollow, hnode, hkind⟩ := find_eq_ok.1 hfind
  obtain ⟨_, rfl⟩ := follow_eq_ok hfollow (f.surrounds_start other)
  have hput := node?_put hplace hother bytes
  exact find_eq_ok.2 ⟨hname, _, follow_put hplace hfile hfollow bytes, hput.trans hnode, hkind⟩

end Folder
end ClausalProof.Command
