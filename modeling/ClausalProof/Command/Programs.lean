import ClausalProof.Command.Inputs
import ClausalProof.Report
import ClausalProof.Verdict.Toml

/-!
The programs: `drup` checks a proof, `witness-check` re-checks a verdict that rejects one,
`apply-proof` splits a proof after some steps, and `check-lemmas` checks clauses one by one. A
program ends with an exit code: 0 for a positive answer, 1 for a negative one or a misuse, 2 for an
error. How arguments are read, archives unpacked and verdicts written is up to libraries.
-/

set_option autoImplicit false

namespace ClausalProof.Command

/-- A program may end early with an exit code. -/
abbrev Program := ExceptT Nat Action

namespace Program

variable (lib : Libraries)

def exitMisuse : Nat := 1

def exitError : Nat := 2

/-- The exit code after a fault. -/
def exitFault : Nat := 101

def die {α : Type} (message : String) : Program α := do
  print ("Error: " ++ message)
  throw exitError

def ofChecked {α : Type} : Checked α → Program α
  | .ok a => pure a
  | .error _ => throw exitFault

def printLabelled (label : String) (value : Nat) : Program Unit := do
  print (← ofChecked (Report.labelled label (Decimal.ofNat value)))

def printStatistics (s : Statistics) : Program Unit := do
  printLabelled "premise clauses" s.premises
  printLabelled "proof steps" s.steps
  printLabelled "RUP introductions" s.implied
  printLabelled "RAT introductions" s.resolved
  printLabelled "deletions" s.deletions
  printLabelled "unmatched deletions" s.unmatched

/-- Say why a proof was rejected. -/
def failureLines (s : Session) (v : Verdict) (proofName : String) (verbose : Bool) : List String :=
  match v.step with
  | none => [Report.comment "no conflict"]
  | some n =>
    let step := (s.proof[n - 1]?.map Step.text).getD ""
    Report.comment
        (proofName ++ ":" ++ Decimal.ofNat n ++ " redundancy check failed for " ++ step) ::
      if verbose then
        v.rup.toList.map (Report.comment ·.text) ++ v.rat.toList.map (Report.comment ·.text)
      else []

/-- Write the witness of a rejected proof and re-check it. -/
def writeWitness (formula proof witness : String) (v : Verdict) : Program Unit := do
  match v.witnessText lib.toml with
  | none => die "Failed to write failure witness: not representable"
  | some text =>
    match ← writeFile witness text with
    | .error e => die ("Failed to write failure witness: " ++ e.message)
    | .ok () => pure ()
  if !(← ofChecked (← confirm lib formula proof v)) then throw exitError

def drupUsage : Usage where
  program := "drup"
  positionals := ["INPUT", "PROOF"]
  switches := [⟨'d', "derivation", false⟩, ⟨'w', "witness", true⟩, ⟨'v', "verbose", false⟩]

/-- Check a proof, and write a witness if it is rejected. -/
def drup (a : Arguments) : Program Nat := do
  let formula := a.positional 0
  let proof := a.positional 1
  let verbose := a.has "verbose"
  let p ←
    match ← load lib formula proof verbose with
    | .error e => die e.message
    | .ok p => pure p
  let mode := if a.has "derivation" then Mode.derivation else Mode.full
  let (s, v) ← ofChecked do (← Session.start p.formula p.proof ⟨mode, true⟩).run
  if verbose then printAll (s.events.toList.map Event.text)
  printStatistics s.statistics
  if v.isValid then
    print (Report.solution "VERIFIED")
    return 0
  else
    printAll (failureLines s v proof verbose)
    print (Report.solution "NOT VERIFIED")
    match a.value? "witness" with
    | some witness => writeWitness lib formula proof witness v
    | none => pure ()
    return 1

def witnessCheckUsage : Usage where
  program := "witness-check"
  positionals := ["INPUT", "PROOF", "WITNESS"]
  switches := []

/-- Re-check the verdict in a witness file. -/
def witnessCheck (a : Arguments) : Program Nat := do
  let bytes ←
    match ← readSource lib (a.positional 2) with
    | .error e => die ("Failed to read witness file: " ++ e.message)
    | .ok bytes => pure bytes
  let text ←
    match Text.decodeUtf8 bytes with
    | .error e => die ("Failed to read witness file: " ++ e.message)
    | .ok text => pure text
  let v ←
    match Verdict.ofToml? lib.toml text with
    | none => die "Failed to parse witness file: not a failure witness"
    | some v => pure v
  if ← ofChecked (← confirm lib (a.positional 0) (a.positional 1) v) then
    print (Report.solution "VERIFIED")
    return 0
  else return 1

def applyProofUsage : Usage where
  program := "apply-proof"
  positionals := ["INPUT", "PROOF", "STEPS", "FORMULA_OUTPUT", "PROOF_OUTPUT"]
  switches := []

/-- A formula as a text: a header with the given numbers, and the clauses. -/
def formulaText (maxVar count : Nat) (clauses : List Clause) : String :=
  "p cnf " ++ Decimal.ofNat maxVar ++ " " ++ Decimal.ofNat count ++ "\n" ++
    String.join (clauses.map fun c => c.text ++ "\n")

def proofText (p : Proof) : String := String.join (p.map fun step => step.text ++ "\n")

/-- The texts of a problem whose first steps have been applied: the live clauses, and the steps
    left. -/
def splitTexts (p : Problem) (steps : Nat) : Checked (String × String) := do
  let s ← Store.replay p.formula (p.proof.take steps)
  let live ← s.scan
  return (formulaText p.maxVar s.live (live.map (·.2)), proofText (p.proof.drop steps))

def writeOutput (name text : String) : Program Unit := do
  match ← writeFile name text with
  | .error e => die e.message
  | .ok () => pure ()

/-- Apply the first steps of a proof unchecked; write the live clauses and the steps left. -/
def applyProof (a : Arguments) : Program Nat := do
  let steps ←
    match count (a.positional 2) with
    | .error e => die ("Number of steps must be an integer: " ++ e.message)
    | .ok n => pure n
  let p ←
    match ← load lib (a.positional 0) (a.positional 1) false with
    | .error e => die e.message
    | .ok p => pure p
  if p.proof.length < steps then
    die ("Number of steps exceeds proof size: " ++ Decimal.ofNat steps ++ " > " ++
      Decimal.ofNat p.proof.length)
  let (formula, proof) ← ofChecked (splitTexts p steps)
  writeOutput (a.positional 3) formula
  writeOutput (a.positional 4) proof
  return 0

def checkLemmasUsage : Usage where
  program := "check-lemmas"
  positionals := ["INPUT", "LEMMAS"]
  switches := []

/-- Check clauses numbered from `n`, print those that are not redundant and count them. -/
def printRejected (f : Formula) (n : Nat) : List Clause → Program Nat
  | [] => pure 0
  | c :: cs => do
    if ← ofChecked (isRedundant f c) then printRejected f (n + 1) cs
    else
      print (Report.comment
        ("lemma " ++ Decimal.ofNat n ++ " is not redundant: " ++ c.text))
      return (← printRejected f (n + 1) cs) + 1

/-- Check each clause of a file on its own against a formula. -/
def checkLemmas (a : Arguments) : Program Nat := do
  let p ←
    match ← loadFormula lib .empty (a.positional 0) false with
    | .error e => die e.message
    | .ok p => pure p
  let bytes ←
    match ← readSource lib (a.positional 1) with
    | .error e => die e.message
    | .ok bytes => pure bytes
  let clauses ←
    match (p.readClauses bytes).2 with
    | .error e => die e.message
    | .ok clauses => pure clauses
  let rejected ← printRejected p.formula 1 clauses
  printLabelled "lemmas" clauses.length
  printLabelled "rejected lemmas" rejected
  if rejected = 0 then
    print (Report.comment "all lemmas are redundant")
    return 0
  else return 1

/-- The programs with their usages. -/
def all : List (Usage × (Arguments → Program Nat)) :=
  [(drupUsage, drup lib), (witnessCheckUsage, witnessCheck lib), (applyProofUsage, applyProof lib),
    (checkLemmasUsage, checkLemmas lib)]

def version : String := "0.1.0"

/-- Run a program on arguments. -/
def start (u : Usage) (program : Arguments → Program Nat) (args : List String) : Program Nat :=
  match lib.arguments u args with
  | .ok a => program a
  | .error .misuse => throw exitMisuse
  | .error .version => do
    print (u.program ++ " " ++ version)
    return 0
  | .error .help => do
    print ("USAGE: " ++ u.program ++ " [FLAGS] [OPTIONS] " ++ " ".intercalate u.positionals)
    return 0

/-- The exit code of the named program, and the environment that it leaves. -/
def run (name : String) (args : List String) (e : Environment) : Nat × Environment :=
  match (all lib).find? (·.1.program == name) with
  | none => (exitMisuse, e)
  | some (u, program) =>
    match StateT.run (ExceptT.run (start lib u program args)) e with
    | (.ok code, e) => (code, e)
    | (.error code, e) => (code, e)

end Program
end ClausalProof.Command
