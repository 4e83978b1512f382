import ClausalProof.Proofs.Engine.Chain
import ClausalProof.Proofs.Engine.Implication

set_option autoImplicit false

/-!
The reasons on the trail of a refutation. They are recorded where a watch is found to be the last one,
without another look at the clause; still every reason names a live clause with the forced literal whose
other literals have become false before. So the trail is an implication graph over the assumptions, in
the order of its literals, also where a conflict has cut the refutation short.
-/
namespace ClausalProof

namespace Trail

def assumptions (A : List Literal) : List Entry := A.map fun l => ⟨l, .assumed⟩

/-- The literals of `A` are assumed, in this order and before all others, and each other literal is
    forced by a clause of `xs` through literals that stand before it. -/
structure Explained (xs : List (Nat × Clause)) (A : List Literal) (t : Trail) : Prop where
  assumed : ∃ newer, t.entries.toList = assumptions A ++ newer ∧ ∀ x ∈ newer, x.reason ≠ .assumed
  forced : ∀ (i : Nat) (l : Literal) (id : Nat), t.entries[i]? = some ⟨l, .forced id⟩ →
    ∃ c, (id, c) ∈ xs ∧ l ∈ c ∧ ∀ k ∈ c, k ≠ l → ∃ j < i, t.literals[j]? = some (-k)

theorem explained_of_assumptions {t : Trail} {A : List Literal} (h : t.entries.toList = assumptions A)
    (xs : List (Nat × Clause)) : t.Explained xs A := by
  refine ⟨⟨[], by rw [h, List.append_nil], by simp⟩, fun i l id hi => ?_⟩
  have hmem := List.mem_of_getElem? (Array.getElem?_toList.trans hi)
  rw [h, assumptions] at hmem
  simp at hmem

theorem Faithful.eraseDups_literals {n : Nat} {t : Trail} (h : t.Faithful n) :
    (t.literals ++ Clause.opposites []).eraseDups = t.literals := by
  rw [Clause.opposites, List.map_nil, List.append_nil, Clause.eraseDups_of_nodup h.nodup]

end Trail

namespace Engine

/-- A clause forces its literal when the others are false, so their negations stand on the trail. -/
theorem keptByForcing_explained (xs : List (Nat × Clause)) (A : List Literal) :
    KeptByForcing xs (Trail.Explained xs A) := by
  intro t u id c l hc hl hfalse hpush ht
  have hlits := Trail.literals_push hpush
  obtain ⟨_, _, _, _, _, rfl⟩ := Trail.push_eq_ok.1 hpush
  constructor
  case assumed =>
    obtain ⟨newer, hentries, hnewer⟩ := ht.assumed
    refine ⟨newer ++ [⟨l, .forced id⟩], ?_, ?_⟩
    · rw [Array.toList_push, hentries, List.append_assoc]
    · intro x hx
      rcases List.mem_append.1 hx with hx | hx
      · exact hnewer x hx
      · rw [List.mem_singleton.1 hx]
        simp
  case forced =>
    -- what stood on the trail keeps its place
    have hkeep : ∀ (j : Nat) (k : Literal), t.literals[j]? = some k → (t.literals ++ [l])[j]? = some k := by
      intro j k hj
      rw [List.getElem?_append_left (List.getElem?_eq_some_iff.1 hj).1, hj]
    intro i m id' hi
    rw [hlits]
    rw [Array.getElem?_push] at hi
    split at hi
    · rename_i hsize
      cases hi
      refine ⟨c, hc, hl, fun k hk hne => ?_⟩
      obtain ⟨j, hj⟩ := List.mem_iff_getElem?.1 (hfalse k hk hne)
      have hlt := (List.getElem?_eq_some_iff.1 hj).1
      rw [Trail.literals_length, Trail.size, ← hsize] at hlt
      exact ⟨j, hlt, hkeep j _ hj⟩
    · obtain ⟨d, hd, hm, hearlier⟩ := ht.forced i m id' hi
      refine ⟨d, hd, hm, fun k hk hne => ?_⟩
      obtain ⟨j, hlt, hj⟩ := hearlier k hk hne
      exact ⟨j, hlt, hkeep j _ hj⟩

/-- Assuming a clause lists the negations of its literals, each where it occurs first, up to a literal
    that is true. -/
theorem Running.entries_of_assume {e f : Engine} {c : Clause} {p : Progress} (h : e.Running)
    (hc : ∀ l ∈ c, l.isValid = true ∧ l.var ≤ e.maxVar)
    (he : e.trail.entries.toList = Trail.assumptions e.trail.literals)
    (hok : e.assume c = .ok (f, p)) :
    ∃ q : Clause, q <+: c ∧ (p = .quiet → q = c) ∧
      f.trail.entries.toList = Trail.assumptions (e.trail.literals ++ q.opposites).eraseDups := by
  induction c generalizing e with
  | nil =>
    cases hok
    exact ⟨[], List.prefix_refl [], fun _ => rfl, by rwa [h.faithful.eraseDups_literals]⟩
  | cons l c ih =>
    obtain ⟨⟨hv, hl⟩, hc⟩ := List.forall_mem_cons.1 hc
    have hopp (q : Clause) : Clause.opposites (l :: q) = -l :: q.opposites := rfl
    rcases h.assign_cases (l := -l) .assumed hv hl with
      ⟨hassign, _⟩ | ⟨hassign, hmem⟩ | ⟨t, hassign, hpush, hrunning, hlits⟩
    all_goals rw [Engine.assume, hassign] at hok
    · cases hok
      exact ⟨[], List.nil_prefix, by simp, by rwa [h.faithful.eraseDups_literals]⟩
    · obtain ⟨q, hq, hquiet, hentries⟩ := ih h hc he hok
      refine ⟨l :: q, List.cons_prefix_cons.2 ⟨rfl, hq⟩, fun hp => by rw [hquiet hp], ?_⟩
      rw [hentries, hopp, Clause.eraseDups_append_cons hmem]
    · have ht : t.entries.toList = Trail.assumptions t.literals := by
        rw [hlits]
        obtain ⟨_, _, _, _, _, rfl⟩ := Trail.push_eq_ok.1 hpush
        rw [Array.toList_push, he, Trail.assumptions, Trail.assumptions, List.map_append]
        rfl
      obtain ⟨q, hq, hquiet, hentries⟩ := ih hrunning hc ht hok
      refine ⟨l :: q, List.cons_prefix_cons.2 ⟨rfl, hq⟩, fun hp => by rw [hquiet hp], ?_⟩
      rw [hentries, hopp, hlits, List.append_assoc, List.singleton_append]

theorem Idle.refute_explained {e : Engine} {c : Clause} (h : e.Idle)
    (hc : ∀ l ∈ c, l.isValid = true ∧ l.var ≤ e.maxVar) :
    ∃ (f : Engine) (p : Progress) (q : Clause), e.refute c = .ok (f, p) ∧ f.store = e.store ∧
      f.Running ∧ q <+: c ∧ (p = .quiet → q = c) ∧
      f.trail.Explained e.store.liveClauses q.opposites.eraseDups := by
  have hnone : e.trail.literals = [] := by rw [h.trail]; rfl
  have hempty : e.trail.entries.toList = Trail.assumptions e.trail.literals := by rw [h.trail]; rfl
  by_cases hnil : [] ∈ e.store.clauses
  · refine ⟨e, .conflict, [], h.refute_of_nil hnil c, rfl, h.running, List.nil_prefix, by simp, ?_⟩
    exact Trail.explained_of_assumptions (by rwa [hnone] at hempty) _
  obtain ⟨f, p, hf, hef, _, hfr, _⟩ :=
    h.running.assume (Q := fun _ => True) hc (fun _ _ _ _ _ _ => trivial) trivial
  obtain ⟨q, hq, hquiet, hentries⟩ := h.running.entries_of_assume hc hempty hf
  rw [hnone, List.nil_append] at hentries
  have hexplained := Trail.explained_of_assumptions hentries e.store.liveClauses
  cases p with
  | conflict =>
    exact ⟨f, .conflict, q, h.refute_of_conflict hnil hf, hef.store, hfr, hq, hquiet, hexplained⟩
  | quiet =>
    obtain rfl := hquiet rfl
    obtain ⟨k, p, hk, hek, hkr, hQk, _⟩ :=
      h.refute_of_quiet hc hnil hf (keptByForcing_explained _ _) hexplained
    exact ⟨k, p, q, hk, hek.store, hkr, hq, fun _ => rfl, hQk⟩

/-- Wherever the watches of an engine stand, the trail that a refutation leaves behind has no variable
    twice and explains itself: it starts with the negated literals of the clause, all of them unless
    there is a conflict, and goes on with literals that live clauses force through earlier ones. -/
theorem refute_reasons (n : Nat) (e : Engine) (he : e.Reached n) (c : Clause) :
    (∀ f p, e.refute c = .ok (f, p) →
      f.store = e.store ∧ (f.trail.literals.map Literal.var).Nodup ∧
      ∃ q : Clause, q <+: c ∧ (p = .quiet → q = c) ∧
        f.trail.Explained f.store.liveClauses q.opposites.eraseDups) ∧
    ((∀ l ∈ c, l.isValid = true ∧ l.var ≤ n) → ∃ f p, e.refute c = .ok (f, p)) := by
  obtain ⟨hidle, rfl⟩ := he.idle
  constructor
  · intro f p hf
    -- literals behind the one that ended the refutation have not been looked at
    obtain ⟨r, hr, hknown, hread, hwhole⟩ := hidle.exists_known_of_refute hf
    obtain ⟨g, s, q, hg, hstore, hrunning, hq, hquiet, hexplained⟩ := hidle.refute_explained hknown
    cases hg.symm.trans hread
    refine ⟨hstore, hrunning.faithful.nodup_vars, q, hq.trans hr, fun hp => ?_, hstore ▸ hexplained⟩
    rw [hquiet hp, hwhole hp]
  · intro hc
    obtain ⟨f, p, _, hf, _⟩ := hidle.refute_explained hc
    exact ⟨f, p, hf⟩

/-- The literal 2 is forced by the oldest clause, although 4 was forced before it. -/
theorem refute_reasons_reordered :
    ∃ e replies f, (empty 5).performAll reorderingHistory = .ok (e, replies) ∧
      e.refute [⟨1, false⟩, ⟨5, false⟩, ⟨1, false⟩] = .ok (f, .quiet) ∧
      f.trail.entries.toList = [⟨⟨1, true⟩, .assumed⟩, ⟨⟨5, true⟩, .assumed⟩, ⟨⟨4, false⟩, .forced 2⟩,
        ⟨⟨2, false⟩, .forced 0⟩, ⟨⟨3, false⟩, .forced 1⟩] ∧
      f.trail.Explained e.store.liveClauses [⟨1, true⟩, ⟨5, true⟩] := by
  have hrun : (do
      let x ← (empty 5).performAll reorderingHistory
      let y ← x.1.refute [⟨1, false⟩, ⟨5, false⟩, ⟨1, false⟩]
      return (y.2, y.1.trail.entries.toList)) =
      .ok (.quiet, [⟨⟨1, true⟩, .assumed⟩, ⟨⟨5, true⟩, .assumed⟩, ⟨⟨4, false⟩, .forced 2⟩,
        ⟨⟨2, false⟩, .forced 0⟩, ⟨⟨3, false⟩, .forced 1⟩]) := by decide +kernel
  obtain ⟨⟨e, replies⟩, he, hrun⟩ := Checked.bind_eq_ok.1 hrun
  obtain ⟨⟨f, p⟩, hf, hrun⟩ := Checked.bind_eq_ok.1 hrun
  obtain ⟨rfl, hentries⟩ : p = _ ∧ f.trail.entries.toList = _ := by
    simpa using Checked.pure_eq_ok.1 hrun
  obtain ⟨hstore, _, q, _, hwhole, hexplained⟩ := (refute_reasons 5 e
    ⟨reorderingHistory, replies, by decide, he⟩ [⟨1, false⟩, ⟨5, false⟩, ⟨1, false⟩]).1 f _ hf
  rw [hwhole rfl, hstore] at hexplained
  exact ⟨e, replies, f, he, hf, hentries, hexplained⟩

end Engine
end ClausalProof
