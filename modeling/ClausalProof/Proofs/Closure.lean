import ClausalProof.Proofs.Clause

set_option autoImplicit false

/-!
Unit propagation as a closure, without an order of steps. `Forced cs A` is the least set of literals
that contains `A` and, with the negations of all literals of a clause of `cs` but one, that one.
A clash is a literal forced both ways or the empty clause. An assignment at rest (`Rests`) bounds the
closure from above, so it excludes a clash; a valuation that satisfies `cs` and `A` does the same,
which makes clashes a sound ground for adding a clause.
-/
namespace ClausalProof

namespace Clause

/-- The negations of the literals of a clause. -/
def opposites (c : Clause) : List Literal := c.map fun l => -l

@[simp] theorem mem_opposites {c : Clause} {l : Literal} : l ∈ c.opposites ↔ -l ∈ c := by
  simp only [opposites, List.mem_map]
  constructor
  · rintro ⟨m, hm, rfl⟩
    simpa using hm
  · intro h
    exact ⟨-l, h, Literal.neg_neg l⟩

end Clause

/-- The literals that unit propagation over `cs` makes true if those of `A` are true. -/
inductive Forced (cs : List Clause) (A : List Literal) : Literal → Prop where
  | given {l : Literal} : l ∈ A → Forced cs A l
  | unit {c : Clause} {l : Literal} :
      c ∈ cs → l ∈ c → (∀ m ∈ c, m ≠ l → Forced cs A (-m)) → Forced cs A l

/-- Unit propagation over `cs` from `A` runs into a conflict. -/
def Clash (cs : List Clause) (A : List Literal) : Prop :=
  [] ∈ cs ∨ ∃ l, Forced cs A l ∧ Forced cs A (-l)

theorem Forced.mono {cs ds : List Clause} {A B : List Literal} {l : Literal}
    (hcs : ∀ c ∈ cs, c ∈ ds) (hA : ∀ l ∈ A, l ∈ B) (h : Forced cs A l) : Forced ds B l := by
  induction h with
  | given hl => exact .given (hA _ hl)
  | unit hc hl _ ih => exact .unit (hcs _ hc) hl ih

theorem Forced.mem {cs : List Clause} {A : List Literal} {l : Literal} (h : Forced cs A l) :
    l ∈ A ∨ ∃ c ∈ cs, l ∈ c := by
  cases h with
  | given hl => exact .inl hl
  | unit hc hl _ => exact .inr ⟨_, hc, hl⟩

theorem Clash.mono {cs ds : List Clause} {A B : List Literal}
    (hcs : ∀ c ∈ cs, c ∈ ds) (hA : ∀ l ∈ A, l ∈ B) (h : Clash cs A) : Clash ds B := by
  rcases h with h | ⟨l, hl, hn⟩
  · exact .inl (hcs _ h)
  · exact .inr ⟨l, hl.mono hcs hA, hn.mono hcs hA⟩

/-- A falsified clause is a clash: each of its literals is forced by the others. -/
theorem Clash.of_falsified {cs : List Clause} {A : List Literal} {c : Clause} (hc : c ∈ cs)
    (h : ∀ l ∈ c, Forced cs A (-l)) : Clash cs A := by
  cases c with
  | nil => exact .inl hc
  | cons l c =>
    refine .inr ⟨l, .unit hc List.mem_cons_self ?_, h l List.mem_cons_self⟩
    intro m hm _
    exact h m hm

/-- A literal that an assignment leaves open. -/
def Open (T : List Literal) (l : Literal) : Prop := l ∉ T ∧ -l ∉ T

/-- Unit propagation learns nothing from the clause: it is satisfied or has two open literals. -/
def Stable (T : List Literal) (c : Clause) : Prop :=
  (∃ l ∈ c, l ∈ T) ∨ ∃ l ∈ c, ∃ m ∈ c, l ≠ m ∧ Open T l ∧ Open T m

def Consistent (T : List Literal) : Prop := ∀ l ∈ T, -l ∉ T

theorem Consistent.mono {T U : List Literal} (h : Consistent T) (hU : ∀ l ∈ U, l ∈ T) :
    Consistent U := fun l hl hn => h l (hU l hl) (hU _ hn)

theorem Consistent.append {T : List Literal} {l : Literal} (h : Consistent T) (hl : Open T l) :
    Consistent (T ++ [l]) := by
  intro m hm hn
  simp only [List.mem_append, List.mem_singleton] at hm hn
  rcases hm with hm | rfl
  · rcases hn with hn | hn
    · exact h m hm hn
    · exact hl.2 (hn ▸ (Literal.neg_neg m).symm ▸ hm)
  · rcases hn with hn | hn
    · exact hl.2 hn
    · exact Literal.neg_ne_self m hn

/-- A consistent assignment beyond `A` in which every clause is stable. -/
structure Rests (cs : List Clause) (A T : List Literal) : Prop where
  given : ∀ l ∈ A, l ∈ T
  consistent : Consistent T
  stable : ∀ c ∈ cs, Stable T c

namespace Rests

variable {cs : List Clause} {A T : List Literal}

theorem congr {U : List Literal} (h : Rests cs A T) (hTU : ∀ l, l ∈ T ↔ l ∈ U) : Rests cs A U := by
  refine ⟨fun l hl => (hTU l).1 (h.given l hl), h.consistent.mono fun l hl => (hTU l).2 hl, ?_⟩
  intro c hc
  simpa only [Stable, Open, hTU] using h.stable c hc

/-- One step of the closure does not leave an assignment at rest. -/
theorem unit_mem (h : Rests cs A T) {c : Clause} {l : Literal} (hc : c ∈ cs)
    (hfalse : ∀ m ∈ c, m ≠ l → -m ∈ T) : l ∈ T := by
  rcases h.stable c hc with ⟨m, hm, hT⟩ | ⟨m, hm, n, hn, hne, hom, hon⟩
  · by_cases he : m = l
    · exact he ▸ hT
    · exact absurd (hfalse m hm he) (h.consistent m hT)
  · by_cases he : m = l
    · exact absurd (hfalse n hn (fun hnl => hne (he.trans hnl.symm))) hon.2
    · exact absurd (hfalse m hm he) hom.2

theorem mem_of_forced (h : Rests cs A T) {l : Literal} (hl : Forced cs A l) : l ∈ T := by
  induction hl with
  | given hl => exact h.given _ hl
  | unit hc _ _ ih => exact h.unit_mem hc ih

theorem not_clash (h : Rests cs A T) : ¬ Clash cs A := by
  rintro (hnil | ⟨l, hl, hn⟩)
  · rcases h.stable [] hnil with ⟨m, hm, _⟩ | ⟨m, hm, _⟩ <;> simp at hm
  · exact h.consistent l (h.mem_of_forced hl) (h.mem_of_forced hn)

end Rests

/-- The truth of every variable. -/
abbrev Valuation := Nat → Bool

namespace Valuation

def Holds (v : Valuation) (l : Literal) : Prop := v l.var = !l.negative

def Satisfies (v : Valuation) (c : Clause) : Prop := ∃ l ∈ c, v.Holds l

def Models (v : Valuation) (cs : List Clause) : Prop := ∀ c ∈ cs, v.Satisfies c

/-- The valuation with the variable of `p` changed so that `p` is true. -/
def make (v : Valuation) (p : Literal) : Valuation :=
  fun n => if n = p.var then !p.negative else v n

theorem holds_neg {v : Valuation} {l : Literal} : v.Holds (-l) ↔ ¬ v.Holds l := by
  change v l.var = !(!l.negative) ↔ ¬ v l.var = !l.negative
  cases v l.var <;> cases l.negative <;> simp

theorem make_holds_self (v : Valuation) (p : Literal) : (v.make p).Holds p := by
  simp [Holds, make]

theorem make_holds {v : Valuation} {p l : Literal} (hl : v.Holds l) (hne : l ≠ -p) :
    (v.make p).Holds l := by
  by_cases hv : l.var = p.var
  · rcases Literal.eq_or_eq_neg hv with rfl | rfl
    · exact make_holds_self v l
    · exact absurd rfl hne
  · simpa [Holds, make, hv] using hl

theorem holds_of_forced {v : Valuation} {cs : List Clause} {A : List Literal} {l : Literal}
    (hcs : v.Models cs) (hA : ∀ l ∈ A, v.Holds l) (h : Forced cs A l) : v.Holds l := by
  induction h with
  | given hl => exact hA _ hl
  | @unit c l hc _ _ ih =>
    obtain ⟨m, hm, hv⟩ := hcs c hc
    by_cases he : m = l
    · exact he ▸ hv
    · exact absurd hv (holds_neg.1 (ih m hm he))

/-- A clause whose negation clashes is implied. -/
theorem satisfies_of_clash {v : Valuation} {cs : List Clause} {c : Clause} (hcs : v.Models cs)
    (h : Clash cs c.opposites) : v.Satisfies c := by
  by_contra hc
  have hA : ∀ l ∈ c.opposites, v.Holds l := by
    intro l hl
    rw [← Literal.neg_neg l, holds_neg]
    exact fun hv => hc ⟨-l, Clause.mem_opposites.1 hl, hv⟩
  rcases h with hnil | ⟨l, hl, hn⟩
  · obtain ⟨m, hm, _⟩ := hcs [] hnil
    simp at hm
  · exact holds_neg.1 (holds_of_forced hcs hA hn) (holds_of_forced hcs hA hl)

/-- If a valuation falsifies `c` only, and satisfies the resolvent of `c` on `p` with every clause
    that has `-p`, then `p` can be made true at the cost of no clause. -/
theorem models_make {v : Valuation} {cs : List Clause} {c : Clause} {p : Literal}
    (hcs : v.Models cs) (hc : ¬ v.Satisfies c) (hp : p ∈ c)
    (h : ∀ d ∈ cs, -p ∈ d →
      (Clause.resolve c p d).isTautology = true ∨ v.Satisfies (Clause.resolve c p d)) :
    (v.make p).Models (c :: cs) := by
  have hfalse : ∀ l ∈ c, ¬ v.Holds l := fun l hl hv => hc ⟨l, hl, hv⟩
  -- a literal of `d` other than `-p` that is true stays true
  have hkeep : ∀ d : Clause, ∀ l ∈ d, l ≠ -p → v.Holds l → (v.make p).Satisfies d :=
    fun d l hl hne hv => ⟨l, hl, make_holds hv hne⟩
  intro d hd
  rcases List.mem_cons.1 hd with rfl | hd
  · exact ⟨p, hp, make_holds_self v p⟩
  by_cases hpd : -p ∈ d
  · rcases h d hd hpd with htaut | ⟨l, hl, hv⟩
    · obtain ⟨l, hl, hn⟩ := Clause.isTautology_iff.1 htaut
      rcases Clause.mem_resolve.1 hl with ⟨hlc, hlp⟩ | ⟨hld, hlp⟩
      · rcases Clause.mem_resolve.1 hn with ⟨hnc, _⟩ | ⟨hnd, hnp⟩
        · exact absurd (holds_neg.2 (hfalse l hlc)) (hfalse _ hnc)
        · exact hkeep d (-l) hnd hnp (holds_neg.2 (hfalse l hlc))
      · by_cases hvl : v.Holds l
        · exact hkeep d l hld hlp hvl
        · rcases Clause.mem_resolve.1 hn with ⟨hnc, _⟩ | ⟨hnd, hnp⟩
          · exact absurd (holds_neg.2 hvl) (hfalse _ hnc)
          · exact hkeep d (-l) hnd hnp (holds_neg.2 hvl)
    · rcases Clause.mem_resolve.1 hl with ⟨hlc, _⟩ | ⟨hld, hlp⟩
      · exact absurd hv (hfalse l hlc)
      · exact hkeep d l hld hlp hv
  · obtain ⟨l, hl, hv⟩ := hcs d hd
    exact hkeep d l hl (fun he => hpd (he ▸ hl)) hv

end Valuation

def Satisfiable (cs : List Clause) : Prop := ∃ v : Valuation, v.Models cs

end ClausalProof
