import ClausalProof.Proofs.Plain
import ClausalProof.Proofs.Store

set_option autoImplicit false

/-!
Steps applied without a check: the live clauses of a store change as the list of the plain checker
does, and the number of clauses ever added grows by the additions.
-/
namespace ClausalProof

namespace Plain

/-- The clauses after a step that is not checked. -/
def apply (cs : List Clause) : Step → List Clause
  | .add c => add cs c
  | .delete c => delete cs c

def applyAll (cs : List Clause) (p : Proof) : List Clause := p.foldl apply cs

theorem applyAll_append (cs : List Clause) (p q : Proof) :
    applyAll cs (p ++ q) = applyAll (applyAll cs p) q :=
  List.foldl_append

theorem sameLiterals_iff {c d : Clause} :
    sameLiterals c d = true ↔ Clause.key d = Clause.key c := by
  rw [Clause.key_eq_key, sameLiterals, Bool.and_eq_true, List.all_eq_true, List.all_eq_true]
  simp only [List.contains_iff_mem]
  exact ⟨fun h l => ⟨h.2 l, h.1 l⟩, fun h => ⟨fun l => (h l).2, fun l => (h l).1⟩⟩

theorem mem_apply {cs : List Clause} {c : Clause} {step : Step} (h : c ∈ apply cs step) :
    c ∈ cs ∨ ∃ d, step = .add d ∧ c = d.eraseDups := by
  cases step with
  | add d =>
    rcases List.mem_append.1 h with h | h
    · exact .inl h
    · exact .inr ⟨d, rfl, List.mem_singleton.1 h⟩
  | delete d => exact .inl (List.mem_of_mem_eraseP h)

theorem mem_applyAll {cs : List Clause} {c : Clause} {p : Proof} (h : c ∈ applyAll cs p) :
    c ∈ cs ∨ ∃ d, Step.add d ∈ p ∧ c = d.eraseDups := by
  induction p generalizing cs with
  | nil => exact .inl h
  | cons step p ih =>
    rcases ih h with hcs | ⟨d, hd, rfl⟩
    · rcases mem_apply hcs with hcs | ⟨d, rfl, rfl⟩
      · exact .inl hcs
      · exact .inr ⟨d, List.mem_cons_self, rfl⟩
    · exact .inr ⟨d, List.mem_cons_of_mem _ hd, rfl⟩

theorem nodup_applyAll {cs : List Clause} (hcs : ∀ d ∈ cs, d.Nodup) (p : Proof) :
    ∀ d ∈ applyAll cs p, d.Nodup := by
  intro d hd
  rcases mem_applyAll hd with hd | ⟨c, _, rfl⟩
  · exact hcs d hd
  · exact Clause.nodup_eraseDups c

end Plain

theorem Proof.additions_cons (step : Step) (p : Proof) :
    additions (step :: p) = step.added?.toList ++ additions p := by
  cases step <;> rfl

theorem Proof.take_succ_length (q r : Proof) (step : Step) :
    (q ++ step :: r).take (q.length + 1) = q ++ [step] := by
  rw [List.take_length_add_append]
  rfl

theorem Proof.additions_append (p q : Proof) : additions (p ++ q) = additions p ++ additions q :=
  List.filterMap_append

namespace Store

variable {s t : Store}

theorem buffer_of_add {c : Clause} {derived : Bool} {id : Nat} (h : s.add c derived = .ok (id, t)) :
    s.buffer.add c derived = .ok (id, t.buffer) := by
  obtain ⟨⟨n, buffer⟩, hbuffer, h⟩ := Checked.bind_eq_ok.1 h
  simp only [Checked.bind_eq_ok, Checked.pure_eq_ok, Prod.mk.injEq] at h
  obtain ⟨_, _, _, _, rfl, rfl⟩ := h
  exact hbuffer

theorem add_eq_ok {c : Clause} {derived : Bool} {id : Nat} (h : s.add c derived = .ok (id, t)) :
    (∀ l ∈ c, l.isZero = false) ∧ s.size ≤ maxIdentifier :=
  Buffer.add_eq_ok (buffer_of_add h)

theorem Indexed.of_add {c : Clause} {derived : Bool} {id : Nat} (h : s.Indexed)
    (hadd : s.add c derived = .ok (id, t)) :
    t.Indexed ∧ t.clauses = Plain.add s.clauses c ∧ t.size = s.size + 1 := by
  obtain ⟨hzero, hid⟩ := add_eq_ok hadd
  obtain ⟨u, hu, hindexed, hsize, hlive⟩ := h.add derived hzero hid
  obtain ⟨-, rfl⟩ : s.size = id ∧ u = t := by simpa [hu] using hadd
  refine ⟨hindexed, ?_, hsize⟩
  rw [clauses, hlive, List.map_append]
  rfl

theorem Without.clauses {c d : Clause} {older newer : List (Nat × Clause)} {id : Nat}
    (h : Without s t c older id d newer) : t.clauses = Plain.delete s.clauses c := by
  rw [Store.clauses, Store.clauses, h.before, h.after, Plain.delete, List.map_append, List.map_append,
    List.eraseP_append_right, List.map_cons, List.eraseP_cons_of_pos]
  · exact Plain.sameLiterals_iff.2 h.same
  · intro e he
    obtain ⟨x, hx, rfl⟩ := List.mem_map.1 he
    exact fun hsame => h.oldest x hx (Plain.sameLiterals_iff.1 hsame)

theorem Indexed.of_delete {c : Clause} {found : Option Nat} (h : s.Indexed)
    (hdel : s.delete c = .ok (found, t)) :
    t.Indexed ∧ t.clauses = Plain.delete s.clauses c ∧ t.size = s.size := by
  rcases h.delete c with ⟨hs, hnone⟩ | ⟨u, older, id, d, newer, hu, hindexed, hwithout⟩
  · obtain rfl : s = t := by simp_all
    refine ⟨h, ?_, rfl⟩
    rw [Plain.delete, List.eraseP_of_forall_not]
    intro d hd hsame
    obtain ⟨id, hid⟩ := mem_clauses.1 hd
    exact hnone _ hid (Plain.sameLiterals_iff.1 hsame)
  · obtain rfl : u = t := by simp_all
    exact ⟨hindexed, hwithout.clauses, hwithout.size⟩

theorem Indexed.apply {step : Step} (h : s.Indexed) (hs : s.apply step = .ok t) :
    t.Indexed ∧ t.clauses = Plain.apply s.clauses step ∧
      t.size = s.size + step.added?.toList.length := by
  cases step with
  | add c =>
    obtain ⟨⟨id, u⟩, hadd, ht⟩ := Checked.bind_eq_ok.1 hs
    obtain rfl := Checked.pure_eq_ok.1 ht
    exact h.of_add hadd
  | delete c =>
    obtain ⟨⟨found, u⟩, hdel, ht⟩ := Checked.bind_eq_ok.1 hs
    obtain rfl := Checked.pure_eq_ok.1 ht
    exact h.of_delete hdel

theorem Indexed.applyAll {p : Proof} (h : s.Indexed) (hs : s.applyAll p = .ok t) :
    t.Indexed ∧ t.clauses = Plain.applyAll s.clauses p ∧
      t.size = s.size + (Proof.additions p).length := by
  induction p generalizing s with
  | nil =>
    obtain rfl : s = t := by simpa [Store.applyAll] using hs
    exact ⟨h, rfl, rfl⟩
  | cons step p ih =>
    obtain ⟨u, hu, hp⟩ := Checked.bind_eq_ok.1 hs
    obtain ⟨hindexed, hclauses, hsize⟩ := h.apply hu
    obtain ⟨ht, htc, hts⟩ := ih hindexed hp
    refine ⟨ht, ?_, ?_⟩
    · rw [htc, hclauses]
      rfl
    · rw [hts, hsize, Proof.additions_cons, List.length_append, Nat.add_assoc]

theorem Indexed.addAll {f : Formula} (h : s.Indexed) (hs : s.addAll f = .ok t) :
    t.Indexed ∧ t.clauses = s.clauses ++ f.map List.eraseDups ∧ t.size = s.size + f.length := by
  induction f generalizing s with
  | nil =>
    obtain rfl : s = t := by simpa [Store.addAll] using hs
    exact ⟨h, by simp, rfl⟩
  | cons c f ih =>
    obtain ⟨⟨id, u⟩, hu, hf⟩ := Checked.bind_eq_ok.1 hs
    obtain ⟨hindexed, hclauses, hsize⟩ := h.of_add hu
    obtain ⟨ht, htc, hts⟩ := ih hindexed hf
    refine ⟨ht, ?_, ?_⟩
    · rw [htc, hclauses, Plain.add, List.append_assoc]
      rfl
    · rw [hts, hsize, List.length_cons, Nat.add_assoc, Nat.add_comm 1]

theorem applyAll_append (p q : Proof) : s.applyAll (p ++ q) = s.applyAll p >>= (·.applyAll q) := by
  induction p generalizing s with
  | nil => rfl
  | cons step p ih =>
    simp only [List.cons_append, Store.applyAll]
    cases s.apply step with
    | error fault => rfl
    | ok u => exact ih

theorem replay_append {f : Formula} {p : Proof} (h : replay f p = .ok s) (q : Proof) :
    replay f (p ++ q) = s.applyAll q := by
  obtain ⟨u, hu, hp⟩ := Checked.bind_eq_ok.1 h
  rw [replay, hu]
  change u.applyAll (p ++ q) = s.applyAll q
  rw [applyAll_append, hp]
  rfl

/-- Only a store with an identifier left takes another clause. -/
theorem size_le_of_applyAll {c : Clause} {p : Proof} (h : s.applyAll (.add c :: p) = .ok t) :
    s.size ≤ maxIdentifier := by
  obtain ⟨u, hu, _⟩ := Checked.bind_eq_ok.1 h
  obtain ⟨⟨id, w⟩, hadd, _⟩ := Checked.bind_eq_ok.1 hu
  exact (add_eq_ok hadd).2

theorem replay_clauses {f : Formula} {p : Proof} (h : replay f p = .ok s) :
    s.Indexed ∧ s.clauses = Plain.applyAll (f.map List.eraseDups) p := by
  obtain ⟨u, hu, hp⟩ := Checked.bind_eq_ok.1 h
  obtain ⟨hindexed, hclauses, _⟩ := indexed_empty.addAll hu
  obtain ⟨hs, hsc, _⟩ := hindexed.applyAll hp
  refine ⟨hs, ?_⟩
  rw [hsc, hclauses]
  rfl

theorem size_replay {f : Formula} {p : Proof} (h : replay f p = .ok s) :
    s.size = f.length + (Proof.additions p).length := by
  obtain ⟨u, hu, hp⟩ := Checked.bind_eq_ok.1 h
  obtain ⟨hindexed, _, husize⟩ := indexed_empty.addAll hu
  rw [(hindexed.applyAll hp).2.2, husize, size_empty, Nat.zero_add]

/-- Nothing but a lack of identifiers keeps a step from being applied. -/
theorem Indexed.apply_cases {step : Step} (h : s.Indexed)
    (hstep : ∀ l ∈ step.literals, l.isZero = false) :
    (∃ t, s.apply step = .ok t) ∨
    (s.apply step = .error .identifierRange ∧
      maxIdentifier + 1 < s.size + step.added?.toList.length) := by
  cases step with
  | add c =>
    by_cases hsize : s.size ≤ maxIdentifier
    · obtain ⟨t, ht, _⟩ := h.add (c := c) true hstep hsize
      exact .inl ⟨t, by rw [Store.apply, ht]; rfl⟩
    · have hfull := add_overflow c true (Nat.lt_of_not_le hsize)
      refine .inr ⟨by rw [Store.apply, hfull]; rfl, ?_⟩
      simp only [Step.added?, Option.toList_some, List.length_singleton]
      omega
  | delete c =>
    rcases h.delete c with ⟨hdel, _⟩ | ⟨t, older, id, d, newer, hdel, _⟩
    · exact .inl ⟨s, by rw [Store.apply, hdel]; rfl⟩
    · exact .inl ⟨t, by rw [Store.apply, hdel]; rfl⟩

theorem Indexed.applyAll_cases {p : Proof} (h : s.Indexed)
    (hp : ∀ step ∈ p, ∀ l ∈ step.literals, l.isZero = false) :
    (∃ t, s.applyAll p = .ok t) ∨
    (s.applyAll p = .error .identifierRange ∧
      maxIdentifier + 1 < s.size + (Proof.additions p).length) := by
  induction p generalizing s with
  | nil => exact .inl ⟨s, rfl⟩
  | cons step p ih =>
    rw [Proof.additions_cons, List.length_append, Store.applyAll]
    rcases h.apply_cases (hp step List.mem_cons_self) with ⟨u, hu⟩ | ⟨hfull, hsize⟩
    · obtain ⟨hindexed, _, husize⟩ := h.apply hu
      rw [hu, ← Nat.add_assoc, ← husize]
      exact ih hindexed fun r hr => hp r (List.mem_cons_of_mem _ hr)
    · rw [hfull]
      exact .inr ⟨rfl, by omega⟩

theorem Indexed.addAll_cases {f : Formula} (h : s.Indexed)
    (hf : ∀ c ∈ f, ∀ l ∈ c, l.isZero = false) :
    (∃ t, s.addAll f = .ok t) ∨
    (s.addAll f = .error .identifierRange ∧ maxIdentifier + 1 < s.size + f.length) := by
  induction f generalizing s with
  | nil => exact .inl ⟨s, rfl⟩
  | cons c f ih =>
    have hc := hf c List.mem_cons_self
    rw [List.length_cons, Store.addAll]
    by_cases hsize : s.size ≤ maxIdentifier
    · obtain ⟨u, hu, hindexed, husize, _⟩ := h.add false hc hsize
      rw [hu, Nat.add_comm f.length, ← Nat.add_assoc, ← husize]
      exact ih hindexed fun d hd => hf d (List.mem_cons_of_mem _ hd)
    · rw [add_overflow c false (Nat.lt_of_not_le hsize)]
      exact .inr ⟨rfl, by omega⟩

theorem replay_cases {f : Formula} {p : Proof} (hf : ∀ c ∈ f, ∀ l ∈ c, l.isZero = false)
    (hp : ∀ step ∈ p, ∀ l ∈ step.literals, l.isZero = false) :
    (∃ t, replay f p = .ok t) ∨
    (replay f p = .error .identifierRange ∧
      maxIdentifier + 1 < f.length + (Proof.additions p).length) := by
  have hzero : empty.size = 0 := rfl
  rw [replay, ofFormula]
  rcases indexed_empty.addAll_cases hf with ⟨u, hu⟩ | ⟨hfull, hsize⟩
  · obtain ⟨hindexed, _, husize⟩ := indexed_empty.addAll hu
    rw [hzero, Nat.zero_add] at husize
    rw [hu, ← husize]
    exact hindexed.applyAll_cases hp
  · rw [hfull]
    exact .inr ⟨rfl, by omega⟩

end Store
end ClausalProof
