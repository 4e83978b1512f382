import ClausalProof.Proofs.Acceptance
import ClausalProof.Proofs.Soundness
import Mathlib.Algebra.Group.Nat.Defs
import Mathlib.Order.WellFounded

set_option autoImplicit false

/-!
Every unsatisfiable formula has a refutation without deletions. A search decides variables one after
another until the decided literals contradict a clause of the formula. Read from its leaves, it is a
proof: the clause of the literals decided so far is added behind those of both branches, and unit
propagation finds the conflict for each of these clauses. The search over all variables always
succeeds; nothing is said about proofs that are shorter than every search.
-/
namespace ClausalProof

/-- Some clause has no literals but those of `d`. -/
def Subsumed (cs : List Clause) (d : Clause) : Prop := ∃ c ∈ cs, ∀ l ∈ c, l ∈ d

section

variable {cs ds f : List Clause} {d : Clause} {p : Literal}

theorem Subsumed.mono (h : Subsumed cs d) (hcs : ∀ c ∈ cs, c ∈ ds) : Subsumed ds d := by
  obtain ⟨c, hc, hd⟩ := h
  exact ⟨c, hcs c hc, hd⟩

theorem Subsumed.map_eraseDups (h : Subsumed f d) : Subsumed (f.map List.eraseDups) d := by
  obtain ⟨c, hc, hd⟩ := h
  exact ⟨c.eraseDups, List.mem_map_of_mem hc, fun l hl => hd l (List.mem_eraseDups.1 hl)⟩

theorem Subsumed.forced (h : Subsumed cs (p :: d)) :
    Clash cs d.opposites ∨ Forced cs d.opposites p := by
  obtain ⟨c, hc, hd⟩ := h
  have hother : ∀ l ∈ c, l ≠ p → Forced cs d.opposites (-l) := by
    intro l hl hne
    have hmem : l ∈ d := (List.mem_cons.1 (hd l hl)).resolve_left hne
    exact .given (Clause.mem_opposites.2 (by simpa using hmem))
  by_cases hp : p ∈ c
  · exact .inr (.unit hc hp hother)
  · exact .inl (.of_falsified hc fun l hl => hother l hl fun he => hp (he ▸ hl))

/-- A clause is implied if both of its extensions by a literal are subsumed. -/
theorem Subsumed.clash (hpos : Subsumed cs (p :: d)) (hneg : Subsumed cs (-p :: d)) :
    Clash cs d.opposites := by
  rcases hpos.forced with hclash | hp
  · exact hclash
  rcases hneg.forced with hclash | hn
  · exact hclash
  exact .inr ⟨p, hp, hn⟩

/-- A clause with a literal of every variable contains some clause of an unsatisfiable formula:
    otherwise the valuation that falsifies it would satisfy them all. -/
theorem subsumed_of_decided (hunsat : ¬ Satisfiable f)
    (hdecided : ∀ c ∈ f, ∀ l ∈ c, l ∈ d ∨ -l ∈ d) : Subsumed f d := by
  by_contra hnone
  let v : Valuation := fun n => decide ((⟨n, true⟩ : Literal) ∈ d)
  refine hunsat ⟨v, fun c hc => ?_⟩
  have hsome : ∃ l ∈ c, l ∉ d := by
    by_contra hall
    exact hnone ⟨c, hc, fun l hl => by_contra fun hl' => hall ⟨l, hl, hl'⟩⟩
  obtain ⟨l, hl, hld⟩ := hsome
  have hneg : -l ∈ d := (hdecided c hc l hl).resolve_left hld
  refine ⟨l, hl, ?_⟩
  rcases l with ⟨n, b⟩
  cases b with
  | false => exact decide_eq_true hneg
  | true => exact decide_eq_false hld

end

def Formula.vars (f : Formula) : List Nat := (f.flatten.map Literal.var).eraseDups

theorem Formula.mem_vars {f : Formula} {x : Nat} :
    x ∈ f.vars ↔ ∃ c ∈ f, ∃ l ∈ c, l.var = x := by
  simp [vars, List.mem_eraseDups]

/-- A search for a valuation: it decides a variable to be false and then to be true, or stops. -/
inductive Search where
  | stop
  | split (x : Nat) (whenFalse whenTrue : Search)

namespace Search

def splits : Search → Nat
  | stop => 0
  | split _ a b => a.splits + b.splits + 1

/-- The search decides variables of the formula, and where it stops a clause has none but false
    literals. Those of `d` are false from the start. -/
def Refutes (f : Formula) : Clause → Search → Prop
  | d, stop => Subsumed f d
  | d, split x a b => x ∈ f.vars ∧ Refutes f (⟨x, false⟩ :: d) a ∧ Refutes f (⟨x, true⟩ :: d) b

/-- The clauses of false literals at the splits, each behind those of both branches. -/
def proof : Clause → Search → Proof
  | _, stop => []
  | d, split x a b => a.proof (⟨x, false⟩ :: d) ++ b.proof (⟨x, true⟩ :: d) ++ [.add d]

/-- The search that decides the given variables and stops behind the last. -/
def ofVars : List Nat → Search
  | [] => stop
  | x :: xs => split x (ofVars xs) (ofVars xs)

theorem splits_ofVars (xs : List Nat) : (ofVars xs).splits + 1 = 2 ^ xs.length := by
  induction xs with
  | nil => rfl
  | cons x xs ih =>
    simp only [ofVars, splits, List.length_cons, Nat.pow_succ]
    omega

theorem length_proof (d : Clause) (t : Search) : (t.proof d).length = t.splits := by
  induction t generalizing d with
  | stop => rfl
  | split x a b iha ihb =>
    simp only [proof, splits, List.length_append, List.length_cons, List.length_nil, iha, ihb]

theorem mem_proof {d : Clause} {t : Search} {step : Step} (h : step ∈ t.proof d) :
    ∃ c, step = .add c := by
  induction t generalizing d with
  | stop => simp [proof] at h
  | split x a b iha ihb =>
    simp only [proof, List.mem_append, List.mem_singleton] at h
    rcases h with (h | h) | h
    · exact iha h
    · exact ihb h
    · exact ⟨d, h⟩

variable {f : Formula} {d : Clause} {t : Search}

theorem Refutes.literals (h : t.Refutes f d) (hd : ∀ l ∈ d, l.var ∈ f.vars) {step : Step}
    (hstep : step ∈ t.proof d) : ∀ l ∈ step.literals, l.var ∈ f.vars := by
  induction t generalizing d with
  | stop => simp [proof] at hstep
  | split x a b iha ihb =>
    obtain ⟨hx, ha, hb⟩ := h
    have hcons : ∀ b, ∀ l ∈ (⟨x, b⟩ : Literal) :: d, l.var ∈ f.vars := fun b =>
      List.forall_mem_cons.2 ⟨hx, hd⟩
    simp only [proof, List.mem_append, List.mem_singleton] at hstep
    rcases hstep with (hstep | hstep) | rfl
    · exact iha ha (hcons false) hstep
    · exact ihb hb (hcons true) hstep
    · exact hd

theorem refutes_ofVars {xs : List Nat} (hunsat : ¬ Satisfiable f) (hxs : ∀ x ∈ xs, x ∈ f.vars)
    (hdecided : ∀ c ∈ f, ∀ l ∈ c, l.var ∈ xs ∨ l ∈ d ∨ -l ∈ d) : (ofVars xs).Refutes f d := by
  induction xs generalizing d with
  | nil => exact subsumed_of_decided hunsat fun c hc l hl => (hdecided c hc l hl).resolve_left (by simp)
  | cons x xs ih =>
    have hbranch : ∀ b, (ofVars xs).Refutes f (⟨x, b⟩ :: d) := by
      refine fun b => ih (fun y hy => hxs y (List.mem_cons_of_mem _ hy)) fun c hc l hl => ?_
      rcases hdecided c hc l hl with hvar | hd | hd
      · rcases List.mem_cons.1 hvar with hx | hxs
        · rcases Literal.eq_or_eq_neg (m := ⟨x, b⟩) hx with rfl | rfl <;> simp
        · exact .inl hxs
      · exact .inr (.inl (List.mem_cons_of_mem _ hd))
      · exact .inr (.inr (List.mem_cons_of_mem _ hd))
    exact ⟨hxs x List.mem_cons_self, hbranch false, hbranch true⟩

/-- A search with the fewest splits among those that refute an unsatisfiable formula. -/
theorem exists_smallest (hunsat : ¬ Satisfiable f) :
    ∃ t : Search, t.Refutes f [] ∧ (∀ u : Search, u.Refutes f [] → t.splits ≤ u.splits) ∧
      t.splits + 1 ≤ 2 ^ f.vars.length := by
  have hall : (ofVars f.vars).Refutes f [] := by
    refine refutes_ofVars hunsat (fun x hx => hx) fun c hc l hl => ?_
    exact .inl (Formula.mem_vars.2 ⟨c, hc, l, hl, rfl⟩)
  obtain ⟨t, ht, hmin⟩ := (InvImage.wf splits Nat.lt_wfRel.wf).has_min {t | t.Refutes f []} ⟨_, hall⟩
  have hleast : ∀ u : Search, u.Refutes f [] → t.splits ≤ u.splits :=
    fun u hu => Nat.not_lt.1 (hmin u hu)
  exact ⟨t, ht, hleast, splits_ofVars f.vars ▸ Nat.succ_le_succ (hleast _ hall)⟩

end Search

namespace Plain

variable {cs : List Clause} {f : Formula} {d : Clause} {p : Proof} {t : Search}

theorem mem_applyAll_of_mem {c : Clause} (hp : ∀ step ∈ p, ∃ d, step = .add d) (h : c ∈ cs) :
    c ∈ applyAll cs p := by
  induction p generalizing cs with
  | nil => exact h
  | cons step p ih =>
    obtain ⟨d, rfl⟩ := hp step List.mem_cons_self
    exact ih (fun s hs => hp s (List.mem_cons_of_mem _ hs)) (List.mem_append_left _ h)

/-- The proof of a search meets no objection and ends with a clause that subsumes `d`. -/
theorem unopposed_proof (h : t.Refutes f d) (hcs : ∀ c ∈ cs, c.Nodup)
    (hf : ∀ c ∈ f.map List.eraseDups, c ∈ cs) :
    Unopposed cs (t.proof d) ∧ Subsumed (applyAll cs (t.proof d)) d := by
  induction t generalizing cs d with
  | stop => exact ⟨trivial, h.map_eraseDups.mono hf⟩
  | split x a b iha ihb =>
    obtain ⟨_, ha, hb⟩ := h
    -- nothing is deleted, so what the first branch ends with is still there behind the second
    have hkeep : ∀ (ds : List Clause) (u : Search) (e : Clause), ∀ c ∈ ds, c ∈ applyAll ds (u.proof e) :=
      fun ds u e c hc => mem_applyAll_of_mem (fun _ => Search.mem_proof) hc
    obtain ⟨hfirst, hpos⟩ := iha ha hcs hf
    have hnodup := nodup_applyAll hcs (a.proof (⟨x, false⟩ :: d))
    obtain ⟨hsecond, hneg⟩ := ihb hb hnodup fun c hc => hkeep _ a _ c (hf c hc)
    have hnodup := nodup_applyAll hnodup (b.proof (⟨x, true⟩ :: d))
    have hclash := (hpos.mono (hkeep _ b _)).clash hneg
    rw [Search.proof, unopposed_append, unopposed_append, applyAll_append, applyAll_append]
    refine ⟨⟨⟨hfirst, hsecond⟩, objection?_of_clash hnodup hclash, trivial⟩, d.eraseDups, ?_, ?_⟩
    · exact List.mem_append_right _ (List.mem_singleton.2 rfl)
    · exact fun l hl => List.mem_eraseDups.1 hl

end Plain

namespace Search

/-- The proof of a search, behind which the empty clause is added, as there may be no split. -/
def refutation (t : Search) : Proof := t.proof [] ++ [.add []]

variable {f : Formula} {t : Search}

theorem length_refutation (t : Search) : t.refutation.length = t.splits + 1 := by
  simp [refutation, length_proof]

theorem mem_refutation {step : Step} (h : step ∈ t.refutation) : ∃ c, step = .add c := by
  rcases List.mem_append.1 h with h | h
  · exact mem_proof h
  · exact ⟨[], List.mem_singleton.1 h⟩

theorem Refutes.valid_refutation (h : t.Refutes f []) (hf : f.Valid) : t.refutation.Valid := by
  intro step hstep l hl
  have hvar : l.var ∈ f.vars := by
    rcases List.mem_append.1 hstep with hstep | hstep
    · exact h.literals (by simp) hstep l hl
    · rw [List.mem_singleton.1 hstep] at hl
      simp [Step.literals] at hl
  obtain ⟨c, hc, m, hm, hvar⟩ := Formula.mem_vars.1 hvar
  have hvalid := hf c hc m hm
  rw [Literal.isValid] at hvalid ⊢
  rwa [← hvar]

theorem Refutes.check (h : t.Refutes f []) : Plain.check f t.refutation .full = .valid := by
  have hnodup := Clause.nodup_map_eraseDups f
  obtain ⟨hproof, c, hc, hnil⟩ := Plain.unopposed_proof h hnodup fun c hc => hc
  obtain rfl : c = [] := List.eq_nil_iff_forall_not_mem.2 fun l hl => by simpa using hnil l hl
  have hlast := Plain.objection?_of_clash (c := []) (Plain.nodup_applyAll hnodup _) (.inl hc)
  have hall : Plain.Unopposed (f.map List.eraseDups) t.refutation :=
    Plain.unopposed_append.2 ⟨hproof, hlast, trivial⟩
  rw [Plain.check, ← List.append_nil t.refutation]
  exact (hall.advance_full (by simp [refutation]) 1 []).1

end Search

namespace Check

/-- A step with numbers in place of its literals. -/
def numbers : Step → NumberStep
  | .add c => .add (c.map Literal.toInt)
  | .delete c => .delete (c.map Literal.toInt)

theorem denotesLiteral_toInt {l : Literal} (h : l.isValid = true) : denotesLiteral l.toInt = true := by
  have hvar := Literal.natAbs_toInt l
  simp only [Literal.isValid, Bool.and_eq_true, decide_eq_true_eq] at h
  simp only [denotesLiteral, Bool.and_eq_true, bne_iff_ne, decide_eq_true_eq]
  omega

theorem stepOf_numbers {step : Step} (h : ∀ l ∈ step.literals, l.isValid = true) :
    stepOf (numbers step) = step := by
  have hmap : ∀ c : Clause, (∀ l ∈ c, l.isValid = true) →
      (c.map Literal.toInt).map Literal.ofInt = c := by
    intro c hc
    rw [List.map_map]
    exact (List.map_congr_left fun l hl => Literal.ofInt_toInt (hc l hl)).trans (List.map_id c)
  cases step with
  | add c => exact congrArg Step.add (hmap c h)
  | delete c => exact congrArg Step.delete (hmap c h)

theorem denotesLiteral_numbers {step : Step} (h : ∀ l ∈ step.literals, l.isValid = true) :
    ∀ v ∈ values (numbers step), denotesLiteral v = true := by
  have hvalues : values (numbers step) = step.literals.map Literal.toInt := by cases step <;> rfl
  intro v hv
  rw [hvalues] at hv
  obtain ⟨l, hl, rfl⟩ := List.mem_map.1 hv
  exact denotesLiteral_toInt (h l hl)

theorem proofOf_numbers {p : Proof} (h : p.Valid) : proofOf (p.map numbers) = p := by
  rw [proofOf, List.map_map]
  exact (List.map_congr_left fun step hstep => stepOf_numbers (h step hstep)).trans (List.map_id p)

end Check

/-- Every unsatisfiable formula has a proof that consists of additions and is accepted as a full
    proof: the plain checker accepts it, and a check gives no other answer and gives this one if
    there are identifiers for the clauses. It has one addition more than the best search has splits,
    and no more than there are valuations of the variables. -/
theorem exists_refutation (f : List (List Int))
    (hf : ∀ vs ∈ f, ∀ v ∈ vs, Check.denotesLiteral v = true)
    (hunsat : ¬ Satisfiable (Check.formulaOf f)) :
    ∃ p : List NumberStep,
      (∀ s ∈ p, ∃ vs, s = .add vs ∧ ∀ v ∈ vs, Check.denotesLiteral v = true) ∧
      (∀ t : Search, t.Refutes (Check.formulaOf f) [] → p.length ≤ t.splits + 1) ∧
      p.length ≤ 2 ^ (Check.formulaOf f).vars.length ∧
      Plain.check (Check.formulaOf f) (Check.proofOf p) .full = .valid ∧
      ∀ evidence, (∀ r, check f p .full evidence = .ok r → r = .ok .valid) ∧
        (f.length + p.length ≤ maxIdentifier + 1 → check f p .full evidence = .ok (.ok .valid)) := by
  obtain ⟨t, ht, hleast, hpow⟩ := Search.exists_smallest hunsat
  have hp : t.refutation.Valid := ht.valid_refutation (Check.valid_formulaOf hf)
  have hnumbers : ∀ s ∈ t.refutation.map Check.numbers, ∀ v ∈ Check.values s,
      Check.denotesLiteral v = true := by
    intro s hs
    obtain ⟨step, hstep, rfl⟩ := List.mem_map.1 hs
    exact Check.denotesLiteral_numbers (hp step hstep)
  have hplain : Plain.check (Check.formulaOf f) (Check.proofOf (t.refutation.map Check.numbers)) .full =
      .valid := by
    rw [Check.proofOf_numbers hp]
    exact ht.check
  have hlen : (t.refutation.map Check.numbers).length = t.splits + 1 := by
    rw [List.length_map, Search.length_refutation]
  refine ⟨t.refutation.map Check.numbers, fun s hs => ?_, fun u hu => ?_, ?_, hplain,
    fun evidence => ?_⟩
  · obtain ⟨step, hstep, rfl⟩ := List.mem_map.1 hs
    obtain ⟨c, rfl⟩ := Search.mem_refutation hstep
    exact ⟨c.map Literal.toInt, rfl, hnumbers _ hs⟩
  · have hle := hleast u hu
    omega
  · omega
  · have hshown : Verdict.valid.shown evidence = .valid := by cases evidence <;> rfl
    obtain ⟨honly, hreturns⟩ := check_of_plain hf hnumbers hplain evidence
    rw [hshown] at honly hreturns
    refine ⟨honly, fun hle => hreturns ?_⟩
    have hadditions : (Proof.additions (Check.proofOf (t.refutation.map Check.numbers))).length ≤
        (t.refutation.map Check.numbers).length := by
      rw [Check.proofOf_numbers hp, List.length_map]
      exact List.length_filterMap_le _ _
    omega

/-- No clause has a single literal, so the empty clause alone is no refutation here. -/
theorem exists_refutation_two_variables :
    check [[1, 2], [-1, 2], [1, -2], [-1, -2]] [.add []] .full false = .ok (.ok .invalid) ∧
    ∃ p : List NumberStep, p.length ≤ 4 ∧
      check [[1, 2], [-1, 2], [1, -2], [-1, -2]] p .full false = .ok (.ok .valid) := by
  have hvalid : checkProof (Check.formulaOf [[1, 2], [-1, 2], [1, -2], [-1, -2]])
      (Check.proofOf [.add [2], .add []]) ⟨.full, false⟩ = .ok .valid := by decide +kernel
  have hunsat := not_satisfiable_of_checkProof (Check.valid_formulaOf (by decide))
    (Check.valid_proofOf (by decide)) hvalid rfl
  obtain ⟨p, _, _, hlen, _, hcheck⟩ := exists_refutation _ (by decide) hunsat
  have hfour : p.length ≤ 4 := hlen
  refine ⟨by decide +kernel, p, hfour, (hcheck false).2 ?_⟩
  exact Nat.le_trans (Nat.add_le_add_left hfour 4) (by decide)

end ClausalProof
