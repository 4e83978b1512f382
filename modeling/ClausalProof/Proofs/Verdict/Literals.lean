import ClausalProof.Proofs.Refinement

set_option autoImplicit false

/-!
What a verdict with evidence shows of a formula and a proof: its literals are theirs, or the opposites
of theirs, and its step is one of the proof.
-/
namespace ClausalProof

def RupFailure.literals (r : RupFailure) : List Literal := r.clause ++ r.chain

def RatFailure.literals (r : RatFailure) : List Literal := r.clause ++ r.pivotClause ++ r.rup.literals

/-- The literals of the clauses and chains that a verdict shows. -/
def Verdict.literals (v : Verdict) : List Literal :=
  (v.accepted.getD []).flatten ++ v.rup.elim [] RupFailure.literals ++ v.rat.elim [] RatFailure.literals

namespace Plain

variable {cs : List Clause} {c : Clause}

theorem valid_of_objection? {rup : RupFailure} {rat : Option RatFailure} (hcs : ∀ d ∈ cs, d.Nodup)
    (hvalid : Formula.Valid cs) (hc : ∀ l ∈ c, l.isValid = true)
    (h : objection? cs c = some (rup, rat)) :
    (∀ l ∈ rup.literals, l.isValid = true) ∧
      ∀ l ∈ rat.elim [] RatFailure.literals, l.isValid = true := by
  unfold objection? at h
  split at h
  · cases h
  · rename_i chain hrest
    have hchain := forall_mem_rest? hcs hrest (fun _ hl => hl) hvalid hc
    split at h
    · cases h
      exact ⟨hchain, by simp⟩
    · rename_i p c
      obtain ⟨⟨d, resolventChain⟩, hd, heq⟩ := Option.map_eq_some_iff.1 h
      cases heq
      obtain ⟨hmem, _, _, hstuck⟩ := rest?_of_unresolved? hd
      have hresolvent : ∀ l ∈ Clause.resolve (p :: c) p d, l.isValid = true := fun l hl => by
        rcases Clause.mem_resolve.1 hl with ⟨hl, _⟩ | ⟨hl, _⟩
        · exact hc l hl
        · exact hvalid d hmem l hl
      have hstuck := forall_mem_rest? hcs hstuck (fun _ hl => hl) hvalid hresolvent
      exact ⟨List.forall_mem_append.2 ⟨hc, hchain⟩, List.forall_mem_append.2
        ⟨List.forall_mem_append.2 ⟨hc, hvalid d hmem⟩, List.forall_mem_append.2 ⟨hc, hstuck⟩⟩⟩

/-- What is shown once the clauses of `accepted` have been added, from step `i` on. -/
theorem shows_advance {mode : Mode} {accepted : List Clause} {i : Nat} {p : Proof}
    (hcs : ∀ d ∈ cs, d.Nodup) (hvalid : Formula.Valid cs)
    (haccepted : ∀ l ∈ accepted.flatten, l.isValid = true) (hp : p.Valid) :
    (∀ l ∈ (advance mode cs accepted i p).literals, l.isValid = true) ∧
      ∀ n, (advance mode cs accepted i p).step = some n → n < i + p.length := by
  induction p generalizing cs accepted i with
  | nil =>
    cases mode with
    | derivation => simp [advance, Verdict.literals, Verdict.valid]
    | full => exact ⟨by simpa [advance, Verdict.literals] using haccepted, by simp [advance]⟩
  | cons step p ih =>
    obtain ⟨hstep, hp⟩ := List.forall_mem_cons.1 hp
    have hnext {cs' accepted' : List Clause} (hcs' : ∀ d ∈ cs', d.Nodup)
        (hvalid' : Formula.Valid cs') (haccepted' : ∀ l ∈ accepted'.flatten, l.isValid = true) :
        (∀ l ∈ (advance mode cs' accepted' (i + 1) p).literals, l.isValid = true) ∧
          ∀ n, (advance mode cs' accepted' (i + 1) p).step = some n → n < i + (step :: p).length := by
      obtain ⟨hliterals, hlt⟩ := ih (i := i + 1) hcs' hvalid' haccepted' hp
      refine ⟨hliterals, fun n hn => ?_⟩
      rw [List.length_cons, ← Nat.add_assoc, Nat.add_right_comm]
      exact hlt n hn
    cases step with
    | delete c =>
      exact hnext (fun d hd => hcs d (List.mem_of_mem_eraseP hd))
        (fun d hd => hvalid d (List.mem_of_mem_eraseP hd)) haccepted
    | add c =>
      rw [advance]
      split
      · rename_i rup rat hobjection
        obtain ⟨hrup, hrat⟩ := valid_of_objection? hcs hvalid hstep hobjection
        refine ⟨List.forall_mem_append.2 ⟨List.forall_mem_append.2 ⟨haccepted, hrup⟩, hrat⟩, ?_⟩
        intro n hn
        cases hn
        simp
      · split
        · simp [Verdict.literals, Verdict.valid]
        · refine hnext (List.forall_mem_append.2 ⟨hcs, ?_⟩) (List.forall_mem_append.2 ⟨hvalid, ?_⟩) ?_
          · exact List.forall_mem_singleton.2 (Clause.nodup_eraseDups c)
          · exact List.forall_mem_singleton.2 fun l hl => hstep l (List.mem_eraseDups.1 hl)
          · rw [List.flatten_append, List.flatten_singleton]
            exact List.forall_mem_append.2 ⟨haccepted, hstep⟩

end Plain

/-- The verdict of a check with evidence. -/
theorem shows_of_checkProof {f : Formula} {p : Proof} {mode : Mode} {v : Verdict} (hf : f.Valid)
    (hp : p.Valid) (h : checkProof f p ⟨mode, true⟩ = .ok v) :
    (∀ l ∈ v.literals, l.isValid = true) ∧ ∀ n, v.step = some n → n ≤ p.length := by
  rcases checkProof_cases hf hp ⟨mode, true⟩ with hok | ⟨herror, _⟩
  · obtain rfl := Except.ok.inj (h.symm.trans hok)
    have hload : ∀ d ∈ f.map List.eraseDups, ∃ c ∈ f, c.eraseDups = d := fun d hd => List.mem_map.1 hd
    have hnodup : ∀ d ∈ f.map List.eraseDups, d.Nodup := fun d hd => by
      obtain ⟨c, _, rfl⟩ := hload d hd
      exact Clause.nodup_eraseDups c
    have hvalid : Formula.Valid (f.map List.eraseDups) := fun d hd l hl => by
      obtain ⟨c, hc, rfl⟩ := hload d hd
      exact hf c hc l (List.mem_eraseDups.1 hl)
    have hnone : ∀ l ∈ ([] : List Clause).flatten, l.isValid = true := by simp
    obtain ⟨hliterals, hlt⟩ := Plain.shows_advance (i := 1) hnodup hvalid hnone hp
    refine ⟨hliterals, fun n hn => ?_⟩
    have hle := hlt n hn
    omega
  · cases h.symm.trans herror

end ClausalProof
