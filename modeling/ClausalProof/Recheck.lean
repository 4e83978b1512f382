import ClausalProof.Store
import ClausalProof.Trail
import ClausalProof.Verdict

/-!
An independent look at a verdict that rejects a proof. It does not propagate: it accepts the
evidence of a failed check if its chain is a consistent assignment that makes the clause false and
leaves every live clause satisfied or with two unassigned literals, so that no propagation can get
any further. The first thing that is wrong is reported.
-/

set_option autoImplicit false

namespace ClausalProof

/-- What is wrong with a verdict that rejects a proof. -/
inductive Objection where
  | notInvalid
  | addsEmptyClause (step : Nat)
  | stepExceedsProof (step : Nat)
  | stepIsDeletion (step : Nat)
  | acceptedDiffer (listed actual : Nat)
  | noRup
  | rupClauseDiffers (listed actual : Clause)
  | ratForEmptyClause
  | noRat
  | ratClauseDiffers (listed actual : Clause)
  | pivotClauseAbsent (pivotClause : Clause)
  | pivotClauseLacks (pivotClause : Clause) (l : Literal)
  | tautology (resolvent : Clause)
  | unknownVariable (var : Nat)
  | inconsistent (var : Nat)
  | notFalsified (l : Literal)
  | notStable (id : Nat) (stored : Clause)
deriving DecidableEq, Repr

def Objection.message : Objection → String
  | .notInvalid => "Witness does not claim the proof is incorrect"
  | .addsEmptyClause n => "Proof step " ++ Decimal.ofNat n ++ " adds the empty clause"
  | .stepExceedsProof n => "Specified proof step exceeds proof size: " ++ Decimal.ofNat n
  | .stepIsDeletion n => "Proof step " ++ Decimal.ofNat n ++ " is a deletion"
  | .acceptedDiffer listed actual =>
    "Witness lists " ++ Decimal.ofNat listed ++ " accepted lemmas, the proof has " ++
      Decimal.ofNat actual ++ " before the failure"
  | .noRup => "Witness carries no RUP diagnostics"
  | .rupClauseDiffers listed actual =>
    "RUP clause " ++ listed.text ++ " differs from lemma " ++ actual.text
  | .ratForEmptyClause => "Witness carries RAT diagnostics for the empty clause"
  | .noRat => "Witness carries no RAT diagnostics"
  | .ratClauseDiffers listed actual =>
    "RAT clause " ++ listed.text ++ " differs from lemma " ++ actual.text
  | .pivotClauseAbsent d => "Pivot clause is not present in the formula: " ++ d.text
  | .pivotClauseLacks d l => "Pivot clause " ++ d.text ++ " does not contain " ++ l.text
  | .tautology r => "Resolvent " ++ r.text ++ " is a tautology"
  | .unknownVariable v => "Chain contains unknown variable " ++ Decimal.ofNat v
  | .inconsistent v => "Chain is inconsistent in variable " ++ Decimal.ofNat v
  | .notFalsified l => "Chain does not falsify literal " ++ l.text
  | .notStable id c =>
    "Chain is not stable under unit propagation for clause " ++ Store.clauseText id c

namespace Recheck

/-- A check either objects, or faults, or passes. -/
inductive Refusal where
  | fault (fault : Fault)
  | objection (objection : Objection)
deriving DecidableEq, Repr

abbrev Audit := Except Refusal

def object {α : Type} (o : Objection) : Audit α := .error (.objection o)

def demand (condition : Bool) (o : Objection) : Audit Unit :=
  if condition then .ok () else object o

def lift {α : Type} (x : Checked α) : Audit α := x.mapError .fault

/-- The assignment that a chain lists. -/
def assignChain (maxVar : Nat) (t : Trail) : List Literal → Audit Trail
  | [] => .ok t
  | l :: chain => do
    demand (l.var ≤ maxVar) (.unknownVariable l.var)
    if ← lift (t.value (-l)) then object (.inconsistent l.var)
    else if ← lift (t.value l) then assignChain maxVar t chain
    else assignChain maxVar (← lift (t.push l .assumed)) chain

/-- Every literal of the clause is false. -/
def falsifies (t : Trail) : Clause → Audit Unit
  | [] => .ok ()
  | l :: c => do
    demand (← lift (t.value (-l))) (.notFalsified l)
    falsifies t c

/-- Unit propagation learns nothing from any of the clauses. -/
def stable (t : Trail) : List (Nat × Clause) → Audit Unit
  | [] => .ok ()
  | (id, c) :: rest => do
    demand (← lift (t.isStable c)) (.notStable id c)
    stable t rest

/-- A chain falsifies a clause and is at rest in the live clauses of the store. -/
def chain (s : Store) (maxVar : Nat) (c : Clause) (chain : List Literal) : Audit Unit := do
  let t ← assignChain maxVar (.empty maxVar) chain
  falsifies t c
  stable t (← lift s.scan)

/-- The accepted clauses, if they are listed, are those of the steps before the failure. -/
def accepted (p : Proof) (v : Verdict) : Audit Unit :=
  match v.accepted with
  | none => .ok ()
  | some listed =>
    demand (listed == Proof.additions p) (.acceptedDiffer listed.length (Proof.additions p).length)

/-- A proof that is rejected for lack of the empty clause does not add it. -/
def noEmptyClause (p : Proof) (v : Verdict) : Audit Unit :=
  match p.findIdx? (· == Step.add []) with
  | some i => object (.addsEmptyClause (i + 1))
  | none => accepted p v

/-- The evidence that a clause is not resolved on its first literal. -/
def resolution (s : Store) (maxVar : Nat) (c : Clause) (pivot : Literal) (rat : RatFailure) :
    Audit Unit := do
  demand (rat.clause == c && rat.rup.clause == c) (.ratClauseDiffers rat.clause c)
  demand (s.find? rat.pivotClause).isSome (.pivotClauseAbsent rat.pivotClause)
  demand (rat.pivotClause.contains (-pivot)) (.pivotClauseLacks rat.pivotClause (-pivot))
  let resolvent := Clause.resolve c pivot rat.pivotClause
  demand (!resolvent.isTautology) (.tautology resolvent)
  chain s maxVar resolvent rat.rup.chain

/-- The evidence against a rejected clause, in the store before its step. -/
def rejection (s : Store) (maxVar : Nat) (c : Clause) (v : Verdict) : Audit Unit :=
  match v.rup with
  | none => object .noRup
  | some rup => do
    demand (rup.clause == c) (.rupClauseDiffers rup.clause c)
    chain s maxVar c rup.chain
    match c, v.rat with
    | [], some _ => object .ratForEmptyClause
    | [], none => .ok ()
    | _ :: _, none => object .noRat
    | pivot :: _, some rat => resolution s maxVar c pivot rat

/-- The evidence against the step with number `step`, counted from 1. -/
def step (f : Formula) (p : Proof) (v : Verdict) (step : Nat) : Audit Unit := do
  demand (1 ≤ step && step ≤ p.length) (.stepExceedsProof step)
  let n ← lift (Verdict.stepsBefore p (some step))
  match p[n]? with
  | none => .error (.fault .stepRange)
  | some (.delete _) => object (.stepIsDeletion step)
  | some (.add c) =>
    let before := p.take n
    accepted before v
    let s ← lift (Store.replay f before)
    rejection s (max (Formula.maxVar f) (Proof.maxVar p)) c v

end Recheck

/-- Re-check a verdict that rejects a proof of a formula. -/
def recheck (f : Formula) (p : Proof) (v : Verdict) : Recheck.Audit Unit :=
  if v.isValid then Recheck.object .notInvalid
  else
    match v.step with
    | none => Recheck.noEmptyClause p v
    | some step => Recheck.step f p v step

end ClausalProof
