import ClausalProof.Proofs.Text.Listing

set_option autoImplicit false

/-!
What programs do, step by step: an action changes the environment, a program may also end early.
`apply-proof` writes the two texts of a problem that is split.
-/
namespace ClausalProof.Command

variable {α β : Type} {lib : Libraries} {e e₁ e₂ e₃ : Environment}

theorem Action.bind {x : Action α} {f : α → Action β} {a : α} (h : x e = (a, e₁)) :
    (x >>= f) e = f a e₁ := by
  change f (x e).1 (x e).2 = f a e₁
  rw [h]

namespace Program

/-- How a program ends, and the environment that it leaves. -/
def outcome (x : Program α) (e : Environment) : Except Nat α × Environment :=
  StateT.run (ExceptT.run x) e

theorem outcome_bind {x : Program α} {f : α → Program β} {a : α} (h : outcome x e = (.ok a, e₁)) :
    outcome (x >>= f) e = outcome (f a) e₁ := by
  have hrun : (ExceptT.run x : Action (Except Nat α)) e = (.ok a, e₁) := h
  change (ExceptT.run x >>= ExceptT.bindCont f : Action (Except Nat β)) e = _
  rw [Action.bind hrun]
  rfl

theorem outcome_bind_error {x : Program α} {f : α → Program β} {code : Nat}
    (h : outcome x e = (.error code, e₁)) : outcome (x >>= f) e = (.error code, e₁) := by
  have hrun : (ExceptT.run x : Action (Except Nat α)) e = (.error code, e₁) := h
  change (ExceptT.run x >>= ExceptT.bindCont f : Action (Except Nat β)) e = _
  rw [Action.bind hrun]
  rfl

theorem outcome_lift {x : Action α} {a : α} (h : x e = (a, e₁)) :
    outcome (liftM x : Program α) e = (.ok a, e₁) := by
  change (Except.ok (x e).1, (x e).2) = (Except.ok a, e₁)
  rw [h]

theorem outcome_writeOutput {name text : String} (h : writeFile name text e = (.ok (), e₁)) :
    outcome (writeOutput name text) e = (.ok (), e₁) := by
  rw [writeOutput, outcome_bind (outcome_lift h)]
  rfl

/-- A program that ends early has an exit code as well. -/
def exitCode : Except Nat Nat → Nat
  | .ok code => code
  | .error code => code

theorem run_eq {name : String} {args : List String} {u : Usage} {program : Arguments → Program Nat}
    {a : Arguments} {x : Except Nat Nat}
    (hfind : (all lib).find? (·.1.program == name) = some (u, program))
    (hargs : lib.arguments u args = .ok a) (h : outcome (program a) e = (x, e₁)) :
    run lib name args e = (exitCode x, e₁) := by
  rw [outcome] at h
  rw [run, hfind]
  simp only [start, hargs, h]
  cases x <;> rfl

/-- A run of `apply-proof` that can read its inputs and write its outputs writes the texts of the
    problem, split behind the steps. -/
theorem run_applyProof {args : List String} {a : Arguments} {n : Nat} {p : Problem}
    {formula proof : String} (hargs : lib.arguments applyProofUsage args = .ok a)
    (hcount : count (a.positional 2) = .ok n)
    (hload : load lib (a.positional 0) (a.positional 1) false e = (.ok p, e₁))
    (hn : n ≤ p.proof.length) (htexts : splitTexts p n = .ok (formula, proof))
    (hformula : writeFile (a.positional 3) formula e₁ = (.ok (), e₂))
    (hproof : writeFile (a.positional 4) proof e₂ = (.ok (), e₃)) :
    run lib "apply-proof" args e = (0, e₃) := by
  have happly : outcome (applyProof lib a) e = (.ok 0, e₃) := by
    rw [applyProof, hcount]
    dsimp only
    rw [pure_bind, outcome_bind (outcome_lift hload)]
    dsimp only
    rw [pure_bind, if_neg (Nat.not_lt.2 hn), htexts, ofChecked, pure_bind]
    dsimp only
    rw [outcome_bind (outcome_writeOutput hformula), outcome_bind (outcome_writeOutput hproof)]
    rfl
  exact run_eq rfl hargs happly

end Program
end ClausalProof.Command
