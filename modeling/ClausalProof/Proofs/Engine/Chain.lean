import ClausalProof.Proofs.Engine.History

set_option autoImplicit false

/-!
The chain of a failed check. Propagation with watches leaves the literals on the trail in an order that
depends on where the watches stand; the chain has the same literals in an order that depends on the
live clauses alone. Behind the negated literals of the checked clause, each literal comes from the
oldest clause that is unit under the literals before it.
-/
namespace ClausalProof

/-- `l` is the one literal of the clause that is open, and the others are false. -/
def UnitUnder (T : List Literal) (c : Clause) (l : Literal) : Prop :=
  l ∈ c ∧ Open T l ∧ ∀ m ∈ c, m ≠ l → -m ∈ T

def FalseUnder (T : List Literal) (c : Clause) : Prop := ∀ l ∈ c, -l ∈ T

/-- `l` is the open literal of the oldest clause that is unit. -/
def OldestUnit (xs : List (Nat × Clause)) (T : List Literal) (l : Literal) : Prop :=
  ∃ id c, (id, c) ∈ xs ∧ UnitUnder T c l ∧ ∀ x ∈ xs, x.1 < id → ∀ m, ¬ UnitUnder T x.2 m

theorem Stable.not_unitUnder {T : List Literal} {c : Clause} (h : Stable T c) (hT : Consistent T)
    (l : Literal) : ¬ UnitUnder T c l := by
  rintro ⟨_, hopen, hfalse⟩
  rcases h with ⟨m, hm, htrue⟩ | ⟨m, hm, k, hk, hne, hmo, hko⟩
  · by_cases he : m = l
    · exact hopen.1 (he ▸ htrue)
    · exact hT m htrue (hfalse m hm he)
  · by_cases he : m = l
    · exact hko.2 (hfalse k hk fun hkl => hne (he.trans hkl.symm))
    · exact hmo.2 (hfalse m hm he)

theorem Stable.not_falseUnder {T : List Literal} {c : Clause} (h : Stable T c) (hT : Consistent T) :
    ¬ FalseUnder T c := by
  intro hfalse
  rcases h with ⟨m, hm, htrue⟩ | ⟨m, hm, _, _, _, hopen, _⟩
  · exact hT m htrue (hfalse m hm)
  · exact hopen.2 (hfalse m hm)

namespace Plain

/-- The literals that propagation has added are those that it scanned for, one after the other. -/
theorem propagate_scans {cs : List Clause} {T U : List Literal} (h : propagate cs T = some U) :
    ∃ rest, U = T ++ rest ∧
      ∀ older l newer, rest = older ++ l :: newer → scan (T ++ older) cs = .unit l := by
  fun_induction propagate cs T with
  | case1 T hscan => cases h
  | case2 T hscan =>
    refine ⟨[], by simpa using h.symm, fun older l newer hsplit => ?_⟩
    simp at hsplit
  | case3 T l hscan ih =>
    obtain ⟨rest, rfl, hrest⟩ := ih h
    refine ⟨l :: rest, by simp, fun older m newer hsplit => ?_⟩
    cases older with
    | nil =>
      obtain ⟨rfl, _⟩ := List.cons.inj hsplit
      simpa using hscan
    | cons k older =>
      obtain ⟨rfl, htail⟩ := List.cons.inj hsplit
      simpa using hrest older m newer htail

/-- The scan names the oldest unit clause, if the clauses are listed by their age. -/
theorem oldestUnit_of_scan {xs : List (Nat × Clause)} {T : List Literal} {l : Literal}
    (hxs : xs.Pairwise fun x y => x.1 < y.1) (hnodup : ∀ x ∈ xs, x.2.Nodup) (hT : Consistent T)
    (h : scan T (xs.map Prod.snd) = .unit l) : OldestUnit xs T l := by
  induction xs with
  | nil => cases h
  | cons x xs ih =>
    obtain ⟨hnewer, hxs⟩ := List.pairwise_cons.1 hxs
    rw [List.map_cons, scan] at h
    split at h
    · rename_i hx
      have hstable := inspect_nothing (hnodup x List.mem_cons_self) hx
      obtain ⟨id, c, hc, hunit, holder⟩ := ih hxs (fun y hy => hnodup y (List.mem_cons_of_mem _ hy)) h
      refine ⟨id, c, List.mem_cons_of_mem _ hc, hunit, fun y hy hlt => ?_⟩
      rcases List.mem_cons.1 hy with rfl | hy
      · exact hstable.not_unitUnder hT
      · exact holder y hy hlt
    · refine ⟨x.1, x.2, List.mem_cons_self, inspect_unit h, fun y hy hlt => ?_⟩
      rcases List.mem_cons.1 hy with rfl | hy
      · exact absurd hlt (Nat.lt_irrefl _)
      · exact absurd (hnewer y hy) (Nat.lt_asymm hlt)

end Plain

namespace Engine

/-- Wherever the watches of an engine stand, a refutation without conflict has a chain, and the chain
    is the trail in another order: first the negated literals of the clause, each once, then literals
    of the oldest unit clause each, until no live clause is unit or false. It is returned as long as the
    number of clauses is an identifier. -/
theorem refute_chain (n : Nat) (e : Engine) (he : e.Reached n) (c : Clause)
    (hc : ∀ l ∈ c, l.isValid = true ∧ l.var ≤ n) :
    ∃ f p, e.refute c = .ok (f, p) ∧ (p = .quiet → ∃ chain rest,
      (e.store.size ≤ maxIdentifier → f.chain c = .ok chain) ∧
      (maxIdentifier < e.store.size → f.chain c = .error .identifierRange) ∧
      chain.Perm f.trail.literals ∧ chain = c.opposites.eraseDups ++ rest ∧
      (∀ older l newer, rest = older ++ l :: newer →
        OldestUnit e.store.liveClauses (c.opposites.eraseDups ++ older) l) ∧
      ∀ d ∈ e.store.clauses, (∀ l, ¬ UnitUnder chain d l) ∧ ¬ FalseUnder chain d) := by
  obtain ⟨hidle, rfl⟩ := he.idle
  obtain ⟨f, p, hf, _⟩ := hidle.refute_closure hc
  refine ⟨f, p, hf, ?_⟩
  rintro rfl
  obtain ⟨chain, hplain, hperm, hchain⟩ := hidle.chain_of_refute hc hf
  have hnodup := hidle.indexed.nodup_clauses
  have hrests := (Plain.rests_of_rest? hnodup hplain).2
  obtain ⟨rest, rfl, hscans⟩ := Plain.propagate_scans (Plain.rest?_eq_some_iff.1 hplain).2
  refine ⟨_, rest, fun hs => ?_, fun hs => ?_, hperm, rfl, ?_, fun d hd => ?_⟩
  · rw [hchain, Store.scanned_of_le hs]
  · rw [hchain, Store.scanned_of_lt hs]
  · rintro older l newer rfl
    refine Plain.oldestUnit_of_scan e.store.pairwise_liveClauses hidle.indexed.nodup ?_
      (hscans older l newer rfl)
    refine hrests.consistent.mono fun m hm => ?_
    rw [← List.append_assoc]
    exact List.mem_append_left _ hm
  · have hstable := hrests.stable d hd
    exact ⟨hstable.not_unitUnder hrests.consistent, hstable.not_falseUnder hrests.consistent⟩

/-- The check moves a watch of the oldest clause, whose place in the list of its literal is lost. -/
def reorderingHistory : List Operation :=
  [.add [⟨1, false⟩, ⟨2, false⟩, ⟨5, false⟩] false, .add [⟨2, true⟩, ⟨3, false⟩] false,
    .add [⟨1, false⟩, ⟨4, false⟩] false, .checkImplied [⟨2, false⟩, ⟨3, false⟩] [] true]

/-- On the trail the literal 4 comes first, as the oldest clause is visited last. -/
theorem refute_chain_reordered :
    ∃ e replies f, (empty 5).performAll reorderingHistory = .ok (e, replies) ∧
      e.refute [⟨1, false⟩, ⟨5, false⟩, ⟨1, false⟩] = .ok (f, .quiet) ∧
      f.trail.literals = [⟨1, true⟩, ⟨5, true⟩, ⟨4, false⟩, ⟨2, false⟩, ⟨3, false⟩] ∧
      f.chain [⟨1, false⟩, ⟨5, false⟩, ⟨1, false⟩] =
        .ok [⟨1, true⟩, ⟨5, true⟩, ⟨2, false⟩, ⟨3, false⟩, ⟨4, false⟩] ∧
      OldestUnit e.store.liveClauses [⟨1, true⟩, ⟨5, true⟩] ⟨2, false⟩ ∧
      OldestUnit e.store.liveClauses [⟨1, true⟩, ⟨5, true⟩, ⟨2, false⟩] ⟨3, false⟩ := by
  have hrun : (do
      let x ← (empty 5).performAll reorderingHistory
      let y ← x.1.refute [⟨1, false⟩, ⟨5, false⟩, ⟨1, false⟩]
      let chain ← y.1.chain [⟨1, false⟩, ⟨5, false⟩, ⟨1, false⟩]
      return (x.1.store.size, y.2, y.1.trail.literals, chain)) =
      .ok (3, .quiet, [⟨1, true⟩, ⟨5, true⟩, ⟨4, false⟩, ⟨2, false⟩, ⟨3, false⟩],
        [⟨1, true⟩, ⟨5, true⟩, ⟨2, false⟩, ⟨3, false⟩, ⟨4, false⟩]) := by decide +kernel
  obtain ⟨⟨e, replies⟩, he, hrun⟩ := Checked.bind_eq_ok.1 hrun
  obtain ⟨⟨f, p⟩, hf, hrun⟩ := Checked.bind_eq_ok.1 hrun
  obtain ⟨chain, hchain, hrun⟩ := Checked.bind_eq_ok.1 hrun
  obtain ⟨hsize, rfl, htrail, rfl⟩ : e.store.size = _ ∧ p = _ ∧ f.trail.literals = _ ∧ chain = _ := by
    simpa using Checked.pure_eq_ok.1 hrun
  obtain ⟨f', p', hf', hquiet⟩ := refute_chain 5 e ⟨reorderingHistory, replies, by decide, he⟩
    [⟨1, false⟩, ⟨5, false⟩, ⟨1, false⟩] (by decide)
  cases hf.symm.trans hf'
  obtain ⟨chain, rest, hreturned, _, _, hsplit, holdest, _⟩ := hquiet rfl
  obtain rfl := Except.ok.inj (hchain.symm.trans (hreturned (hsize ▸ by decide)))
  have hfirst : (Clause.opposites [⟨1, false⟩, ⟨5, false⟩, ⟨1, false⟩]).eraseDups =
      [⟨1, true⟩, ⟨5, true⟩] := by decide
  rw [hfirst] at hsplit holdest
  obtain rfl : [⟨2, false⟩, ⟨3, false⟩, ⟨4, false⟩] = rest := by simpa using hsplit
  exact ⟨e, replies, f, he, hf, htrail, hchain, holdest [] _ _ rfl, holdest [⟨2, false⟩] _ _ rfl⟩

end Engine
end ClausalProof
