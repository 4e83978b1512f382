import ClausalProof.Command.Environment
import ClausalProof.Recheck

/-!
Formulas and proofs from files. A program that reports to its user reads and parses the formula
first, names the file in its error messages and prints warnings; a check that is called from another
one reads both files before it parses them.
-/

set_option autoImplicit false

namespace ClausalProof.Command

open Text

variable (lib : Libraries)

/-- Read both files, then parse them. -/
def readProblem (formula proof : String) : Action (Except SourceError Problem) := do
  match ← readSource lib formula with
  | .error e => return .error (.formula (.file e))
  | .ok formula =>
    match ← readSource lib proof with
    | .error e => return .error (.proof (.file e))
    | .ok proof => return Problem.ofBytes formula proof

/-- Check a proof for a formula, both given as files. -/
def checkFiles (formula proof : String) (flags : Flags) :
    Action (Checked (Except SourceError Verdict)) := do
  match ← readProblem lib formula proof with
  | .error e => return .ok (.error e)
  | .ok p => return .ok <$> p.check flags

/-- An error with the role and the name of the file that it is about. -/
structure FileFailure where
  role : String
  name : String
  error : ReadError
deriving DecidableEq, Repr

def FileFailure.message (f : FileFailure) : String :=
  f.role ++ " " ++ f.name ++ ": " ++ f.error.message

def printWarning (warning : Option Warning) : Action Unit := printAll (warning.toList.map Warning.text)

def loadFormula (p : Problem) (name : String) (verbose : Bool) : Action (Except ReadError Problem) := do
  match ← readSource lib name with
  | .error e => return .error (.file e)
  | .ok bytes =>
    match p.readFormula bytes with
    | (_, some e) => return .error (.malformed e)
    | (p, none) =>
      if verbose then printWarning p.clauseCountWarning?
      return .ok p

def loadProof (p : Problem) (name : String) : Action (Except ReadError Problem) := do
  match ← readSource lib name with
  | .error e => return .error (.file e)
  | .ok bytes => return unlessCut .malformed (p.readProof bytes)

/-- Read and parse a formula, then a proof, with warnings. -/
def load (formula proof : String) (verbose : Bool) : Action (Except FileFailure Problem) := do
  match ← loadFormula lib .empty formula verbose with
  | .error e => return .error ⟨"formula", formula, e⟩
  | .ok p =>
    match ← loadProof lib p proof with
    | .error e => return .error ⟨"proof", proof, e⟩
    | .ok p =>
      printWarning p.farVariableWarning?
      return .ok p

/-- What keeps a verdict from being confirmed. -/
inductive RecheckError where
  | source (error : SourceError)
  | objection (objection : Objection)
deriving DecidableEq, Repr

def RecheckError.message : RecheckError → String
  | .source e => e.message
  | .objection o => o.message

/-- Re-check a verdict against a formula and a proof from files. -/
def recheckFiles (formula proof : String) (v : Verdict) :
    Action (Checked (Except RecheckError Unit)) := do
  match ← readProblem lib formula proof with
  | .error e => return .ok (.error (.source e))
  | .ok p =>
    match recheck p.formula p.proof v with
    | .ok () => return .ok (.ok ())
    | .error (.objection o) => return .ok (.error (.objection o))
    | .error (.fault f) => return .error f

/-- Re-check a verdict, and print what is wrong with it. -/
def confirm (formula proof : String) (v : Verdict) : Action (Checked Bool) := do
  match ← recheckFiles lib formula proof v with
  | .error f => return .error f
  | .ok (.ok ()) => return .ok true
  | .ok (.error e) =>
    print e.message
    print "Proof claimed incorrect but validation failed, please report a bug!"
    return .ok false

end ClausalProof.Command
