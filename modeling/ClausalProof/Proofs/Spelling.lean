import ClausalProof.Proofs.Acceptance
import Mathlib.Data.List.Forall2

set_option autoImplicit false

/-!
The verdict on a proof does not depend on how its clauses are written. Two lists of clauses are alike
if they are the same multiset of sets of literals. Alike lists object to the same clauses, whatever
the order of their clauses and literals is; additions and deletions keep lists alike, although a
deletion may take out clauses in different places. Only the first literal of an added clause
matters, as the resolvents are taken on it.
-/
namespace ClausalProof

/-- The same elements, in whatever order and number. -/
def Respelled {α : Type} (xs ys : List α) : Prop := ∀ x, x ∈ xs ↔ x ∈ ys

theorem Respelled.symm {α : Type} {xs ys : List α} (h : Respelled xs ys) : Respelled ys xs :=
  fun x => (h x).symm

theorem Respelled.map {α β : Type} {xs ys : List α} (h : Respelled xs ys) (f : α → β) :
    Respelled (xs.map f) (ys.map f) := by
  intro y
  simp [h _]

theorem Respelled.eq_nil_iff {α : Type} {xs ys : List α} (h : Respelled xs ys) :
    xs = [] ↔ ys = [] := by
  simp [List.eq_nil_iff_forall_not_mem, h _]

/-- Steps that add or delete the same literals; added clauses also agree in their first literal. -/
def Step.Respelled : Step → Step → Prop
  | .add c, .add d => ClausalProof.Respelled c d ∧ c.head? = d.head?
  | .delete c, .delete d => ClausalProof.Respelled c d
  | _, _ => False

def NumberStep.Respelled : NumberStep → NumberStep → Prop
  | .add vs, .add ws => ClausalProof.Respelled vs ws ∧ vs.head? = ws.head?
  | .delete vs, .delete ws => ClausalProof.Respelled vs ws
  | _, _ => False

theorem exists_mem_of_forall₂ {α β : Type} {R : α → β → Prop} {xs : List α} {ys : List β} {y : β}
    (h : List.Forall₂ R xs ys) (hy : y ∈ ys) : ∃ x ∈ xs, R x y := by
  induction h with
  | nil => simp at hy
  | @cons a b xs ys hab _ ih =>
    rcases List.mem_cons.1 hy with rfl | hy
    · exact ⟨a, List.mem_cons_self, hab⟩
    · obtain ⟨x, hx, hxy⟩ := ih hy
      exact ⟨x, List.mem_cons_of_mem _ hx, hxy⟩

section

variable {cs ds : List Clause} {A B : List Literal}

/-- Propagation forces at least as much if every clause and every assumption has a counterpart. -/
theorem Forced.respelled {l : Literal} (hcs : ∀ c ∈ cs, ∃ d ∈ ds, Respelled c d)
    (hA : ∀ l ∈ A, l ∈ B) (h : Forced cs A l) : Forced ds B l := by
  induction h with
  | given hl => exact .given (hA _ hl)
  | @unit c l hc hl _ ih =>
    obtain ⟨d, hd, hcd⟩ := hcs c hc
    exact .unit hd ((hcd l).1 hl) fun m hm hne => ih m ((hcd m).2 hm) hne

theorem Clash.respelled (hcs : ∀ c ∈ cs, ∃ d ∈ ds, Respelled c d) (hA : ∀ l ∈ A, l ∈ B)
    (h : Clash cs A) : Clash ds B := by
  rcases h with hnil | ⟨l, hl, hn⟩
  · obtain ⟨d, hd, hnil⟩ := hcs [] hnil
    exact .inl (hnil.eq_nil_iff.1 rfl ▸ hd)
  · exact .inr ⟨l, hl.respelled hcs hA, hn.respelled hcs hA⟩

/-- A clause that is there, however it is written, clashes with its own negation. -/
theorem Clash.of_mem {c d : Clause} (hd : d ∈ cs) (h : Respelled d c) : Clash cs c.opposites := by
  apply Clash.of_falsified hd
  intro l hl
  apply Forced.given
  rw [Clause.mem_opposites, Literal.neg_neg]
  exact (h l).1 hl

end

namespace Plain

/-- The same sets of literals, each as many times. -/
def Alike (cs ds : List Clause) : Prop := (cs.map Clause.key).Perm (ds.map Clause.key)

variable {cs ds : List Clause} {c d : Clause}

theorem Alike.covers (h : Alike cs ds) : ∀ c ∈ cs, ∃ d ∈ ds, Respelled c d := by
  intro c hc
  obtain ⟨d, hd, hkey⟩ := List.mem_map.1 (h.subset (List.mem_map_of_mem hc))
  exact ⟨d, hd, Clause.key_eq_key.1 hkey.symm⟩

theorem Alike.add (h : Alike cs ds) (hcd : Respelled c d) : Alike (add cs c) (add ds d) := by
  have hkey : Clause.key c.eraseDups = Clause.key d.eraseDups := by
    rw [Clause.key_eraseDups, Clause.key_eraseDups]
    exact Clause.key_eq_key.2 hcd
  simp only [Alike, Plain.add, List.map_append, List.map_cons, List.map_nil, hkey]
  exact h.append_right _

theorem map_key_delete (cs : List Clause) (c : Clause) :
    (delete cs c).map Clause.key = (cs.map Clause.key).erase (Clause.key c) := by
  have hsame : sameLiterals c = fun d => Clause.key d == Clause.key c := by
    funext d
    rw [Bool.eq_iff_iff, sameLiterals_iff, beq_iff_eq]
  rw [delete, hsame, List.erase_eq_eraseP', List.eraseP_map]
  rfl

/-- The oldest clause with the same literals may stand elsewhere, but what is left is alike. -/
theorem Alike.delete (h : Alike cs ds) (hcd : Respelled c d) : Alike (delete cs c) (delete ds d) := by
  have hkey : Clause.key c = Clause.key d := Clause.key_eq_key.2 hcd
  rw [Alike, map_key_delete, map_key_delete, hkey]
  exact h.erase _

theorem Alike.redundant (h : Alike cs ds) (hcs : ∀ c ∈ cs, c.Nodup) (hds : ∀ d ∈ ds, d.Nodup)
    (hcd : Respelled c d) (hhead : c.head? = d.head?) (hc : objection? cs c = none) :
    objection? ds d = none := by
  have hclash : ∀ {a b : Clause}, Respelled a b → Clash cs a.opposites → Clash ds b.opposites := by
    intro a b hab
    refine Clash.respelled h.covers fun l hl => ?_
    exact Clause.mem_opposites.2 ((hab _).1 (Clause.mem_opposites.1 hl))
  rw [objection?_eq_none_iff hds]
  rcases (objection?_eq_none_iff hcs).1 hc with hc | ⟨l, hl, hall⟩
  · exact .inl (hclash hcd hc)
  · refine .inr ⟨l, hhead ▸ hl, fun b hb hlb => ?_⟩
    obtain ⟨a, ha, hba⟩ := Alike.covers h.symm b hb
    have hresolve : Respelled (Clause.resolve c l a) (Clause.resolve d l b) := by
      intro m
      rw [Clause.mem_resolve, Clause.mem_resolve, hcd m, hba m]
    rcases hall a ha ((hba _).1 hlb) with htaut | himplied
    · exact .inl (Clause.isTautology_congr hresolve ▸ htaut)
    · exact .inr (hclash hresolve himplied)

theorem Alike.objection? (h : Alike cs ds) (hcs : ∀ c ∈ cs, c.Nodup) (hds : ∀ d ∈ ds, d.Nodup)
    (hcd : Respelled c d) (hhead : c.head? = d.head?) :
    objection? cs c = none ↔ objection? ds d = none :=
  ⟨h.redundant hcs hds hcd hhead, Alike.redundant h.symm hds hcs hcd.symm hhead.symm⟩

/-- From alike lists a run ends in the same way at the same step, after as many additions. -/
theorem Alike.advance {p q : Proof} (h : Alike cs ds) (hcs : ∀ c ∈ cs, c.Nodup)
    (hds : ∀ d ∈ ds, d.Nodup) (hpq : List.Forall₂ Step.Respelled p q) (flags : Flags)
    (accepted accepted' : List Clause) (i : Nat) :
    (advance flags.mode cs accepted i p).outcome = (advance flags.mode ds accepted' i q).outcome ∧
    (advance flags.mode cs accepted i p).step = (advance flags.mode ds accepted' i q).step ∧
    demanded flags cs p = demanded flags ds q := by
  -- the accepted clauses differ as they are written, and play no part in what is compared
  induction hpq generalizing cs ds accepted accepted' i with
  | nil => cases flags.mode <;> exact ⟨rfl, rfl, rfl⟩
  | @cons s t p q hst _ ih =>
    have hcs' := nodup_applyAll hcs [s]
    have hds' := nodup_applyAll hds [t]
    match s, t with
    | .delete c, .delete d => exact ih (h.delete hst) hcs' hds' accepted accepted' (i + 1)
    | .add c, .add d =>
      obtain ⟨hcd, hhead⟩ := hst
      have hobj := h.objection? hcs hds hcd hhead
      simp only [Plain.advance, demanded]
      cases hc : Plain.objection? cs c with
      | some x =>
        obtain ⟨y, hy⟩ := Option.ne_none_iff_exists'.1 (mt hobj.2 (by simp [hc]))
        simp only [hy, hcd.eq_nil_iff]
        exact ⟨trivial, trivial, trivial⟩
      | none =>
        rw [hobj.1 hc]
        obtain ⟨houtcome, hstep, hcount⟩ :=
          ih (h.add hcd) hcs' hds' (accepted ++ [c]) (accepted' ++ [d]) (i + 1)
        simp only [hcd.eq_nil_iff, hcount]
        split
        · exact ⟨rfl, rfl, trivial⟩
        · exact ⟨houtcome, hstep, trivial⟩

end Plain

namespace Check

variable {f g : List (List Int)} {p q : List NumberStep}

theorem alike_formulaOf (hperm : f.Perm g) {f' : List (List Int)}
    (hg : List.Forall₂ Respelled g f') :
    Plain.Alike ((formulaOf f).map List.eraseDups) ((formulaOf f').map List.eraseDups) := by
  have hkeys : ∀ h : List (List Int), ((formulaOf h).map List.eraseDups).map Clause.key =
      h.map fun vs => Clause.key (vs.map Literal.ofInt) := by
    intro h
    simp [formulaOf, Clause.key_eraseDups]
  have hsame : g.map (fun vs => Clause.key (vs.map Literal.ofInt)) =
      f'.map fun vs => Clause.key (vs.map Literal.ofInt) := by
    clear hperm
    induction hg with
    | nil => rfl
    | cons hvs _ ih => rw [List.map_cons, List.map_cons, ih, Clause.key_eq_key.2 (hvs.map _)]
  rw [Plain.Alike, hkeys, hkeys, ← hsame]
  exact hperm.map _

theorem respelled_proofOf (h : List.Forall₂ NumberStep.Respelled p q) :
    List.Forall₂ Step.Respelled (proofOf p) (proofOf q) := by
  induction h with
  | nil => exact .nil
  | @cons s t p q hst _ ih =>
    refine .cons ?_ ih
    match s, t with
    | .delete vs, .delete ws => exact Respelled.map hst _
    | .add vs, .add ws => exact ⟨hst.1.map _, by simp [hst.2]⟩

theorem denotes_formula {f' : List (List Int)} (hperm : f.Perm g) (hg : List.Forall₂ Respelled g f')
    (hf : ∀ vs ∈ f, ∀ v ∈ vs, denotesLiteral v = true) :
    ∀ vs ∈ f', ∀ v ∈ vs, denotesLiteral v = true := by
  intro vs hvs v hv
  obtain ⟨ws, hws, hsame⟩ := exists_mem_of_forall₂ hg hvs
  exact hf ws (hperm.mem_iff.2 hws) v ((hsame v).2 hv)

theorem denotes_proof (h : List.Forall₂ NumberStep.Respelled p q)
    (hp : ∀ s ∈ p, ∀ v ∈ values s, denotesLiteral v = true) :
    ∀ s ∈ q, ∀ v ∈ values s, denotesLiteral v = true := by
  intro t ht v hv
  obtain ⟨s, hs, hst⟩ := exists_mem_of_forall₂ h ht
  refine hp s hs v ?_
  match s, t with
  | .delete vs, .delete ws => exact (hst v).2 hv
  | .add vs, .add ws => exact (hst.1 v).2 hv

end Check

/-- Premises may be permuted, and literals permuted and repeated in premises, in deleted clauses and
    behind the first literal of added ones: the check gives the same outcome at the same step. It
    does give one if there are identifiers for the clauses. -/
theorem check_respelled (f g f' : List (List Int)) (p p' : List NumberStep) (mode : Mode)
    (hf : ∀ vs ∈ f, ∀ v ∈ vs, Check.denotesLiteral v = true)
    (hp : ∀ s ∈ p, ∀ v ∈ Check.values s, Check.denotesLiteral v = true)
    (hperm : f.Perm g) (hg : List.Forall₂ Respelled g f')
    (hpp' : List.Forall₂ NumberStep.Respelled p p') :
    (∀ v, check f p mode true = .ok (.ok v) →
      ∃ w, check f' p' mode true = .ok (.ok w) ∧ w.outcome = v.outcome ∧ w.step = v.step) ∧
    (f.length + (Proof.additions (Check.proofOf p)).length ≤ maxIdentifier + 1 →
      ∃ v, check f p mode true = .ok (.ok v)) := by
  have hf' := Check.denotes_formula hperm hg hf
  have hp' := Check.denotes_proof hpp' hp
  obtain ⟨houtcome, hstep, hcount⟩ := (Check.alike_formulaOf hperm hg).advance
    (Clause.nodup_map_eraseDups _) (Clause.nodup_map_eraseDups _) (Check.respelled_proofOf hpp')
    ⟨mode, true⟩ [] [] 1
  have hlength : (Check.formulaOf f').length = (Check.formulaOf f).length := by
    simp [Check.formulaOf, ← hg.length_eq, hperm.length_eq]
  rw [check_eq hf hp, check_eq hf' hp', checkProof_eq (Check.valid_formulaOf hf) (Check.valid_proofOf hp),
    checkProof_eq (Check.valid_formulaOf hf') (Check.valid_proofOf hp'), hlength, ← hcount]
  split
  · refine ⟨fun v hv => ⟨_, rfl, ?_⟩, fun _ => ⟨_, rfl⟩⟩
    cases hv
    exact ⟨houtcome.symm, hstep.symm⟩
  · rename_i hmany
    refine ⟨fun v hv => (by cases hv), fun hle => absurd ?_ hmany⟩
    have hle' := Plain.demanded_le ⟨mode, true⟩ ((Check.formulaOf f).map List.eraseDups) (Check.proofOf p)
    have hlen : (Check.formulaOf f).length = f.length := List.length_map _
    omega

/-- The deletions take out the added clause and a premise, in one order and in the other. -/
theorem check_respelled_rejection :
    check [[1, 2], [-1, 2], [3, 1]] [.add [2, 1], .delete [1, 2], .delete [2, 1], .add [-2]] .derivation
      true = .ok (.ok ⟨.invalid, some 4, some [[⟨2, false⟩, ⟨1, false⟩]],
        some ⟨[⟨2, true⟩], [⟨2, false⟩]⟩,
        some ⟨[⟨2, true⟩], [⟨1, true⟩, ⟨2, false⟩], ⟨[⟨2, true⟩], [⟨1, false⟩, ⟨2, false⟩]⟩⟩⟩) ∧
    ∃ w, check [[1, 3, 1], [2, 1], [2, -1, 2]]
        [.add [2, 1, 2], .delete [2, 1, 1], .delete [1, 2], .add [-2, -2]] .derivation true =
          .ok (.ok w) ∧
      w.outcome = .invalid ∧ w.step = some 4 := by
  have hcheck : check [[1, 2], [-1, 2], [3, 1]]
      [.add [2, 1], .delete [1, 2], .delete [2, 1], .add [-2]] .derivation true =
      .ok (.ok ⟨.invalid, some 4, some [[⟨2, false⟩, ⟨1, false⟩]], some ⟨[⟨2, true⟩], [⟨2, false⟩]⟩,
        some ⟨[⟨2, true⟩], [⟨1, true⟩, ⟨2, false⟩], ⟨[⟨2, true⟩], [⟨1, false⟩, ⟨2, false⟩]⟩⟩⟩) := by
    decide +kernel
  refine ⟨hcheck, (check_respelled _ [[3, 1], [1, 2], [-1, 2]] _ _ _ .derivation (by decide)
    (by decide) (by decide) ?_ ?_).1 _ hcheck⟩
  · refine .cons ?_ (.cons ?_ (.cons ?_ .nil)) <;> intro v <;> simp <;> tauto
  · refine .cons ⟨?_, rfl⟩ (.cons ?_ (.cons ?_ (.cons ⟨?_, rfl⟩ .nil))) <;> intro v <;> simp <;> tauto

end ClausalProof
