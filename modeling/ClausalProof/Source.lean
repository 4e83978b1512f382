import ClausalProof.Problem
import ClausalProof.Session
import ClausalProof.Text.Utf8

/-!
Checks of formulas and proofs that are given as text. Texts are read before anything is checked, and
an error says which of the two texts it is about.
-/

set_option autoImplicit false

namespace ClausalProof

open Text

/-- Why an archive cannot be unpacked. -/
structure UnpackError where
  /-- The archive was read, but it is none. -/
  isInvalidData : Bool
  message : String
deriving DecidableEq, Repr

/-- Why a file cannot be opened or unpacked. -/
inductive FileError where
  | notFound
  | isDirectory
  | notDirectory
  | nameTooLong
  | nulInName
  | packed (error : UnpackError)
deriving DecidableEq, Repr

def FileError.message : FileError → String
  | .notFound => "No such file or directory (os error 2)"
  | .isDirectory => "Is a directory (os error 21)"
  | .notDirectory => "Not a directory (os error 20)"
  | .nameTooLong => "File name too long (os error 36)"
  | .nulInName => "file name contained an unexpected NUL byte"
  | .packed e => e.message

/-- Why an input cannot be used: it cannot be opened, or its text is malformed. -/
inductive ReadError where
  | file (error : FileError)
  | malformed (error : TextError)
deriving DecidableEq, Repr

def ReadError.message : ReadError → String
  | .file e => e.message
  | .malformed e => e.message

def ReadError.isMalformed : ReadError → Bool
  | .file (.packed e) => e.isInvalidData
  | .file _ => false
  | .malformed _ => true

/-- Which input cannot be used. Lists of clauses count as proofs. -/
inductive SourceError where
  | formula (error : ReadError)
  | proof (error : ReadError)
deriving DecidableEq, Repr

namespace SourceError

def cause : SourceError → ReadError
  | .formula e => e
  | .proof e => e

def message : SourceError → String
  | .formula e => "failed to read formula: " ++ e.message
  | .proof e => "failed to read proof: " ++ e.message

end SourceError

/-- What was read, unless an error cut it short. -/
def unlessCut {α ε : Type} (wrap : TextError → ε) : α × Option TextError → Except ε α
  | (a, none) => .ok a
  | (_, some e) => .error (wrap e)

namespace Problem

/-- A formula and a proof from their bytes. -/
def ofBytes (formula proof : List UInt8) : Except SourceError Problem := do
  let p ← unlessCut (fun e => .formula (.malformed e)) (empty.readFormula formula)
  unlessCut (fun e => .proof (.malformed e)) (p.readProof proof)

/-- A formula and a proof from their texts. -/
def ofTexts (formula proof : String) : Except SourceError Problem :=
  ofBytes (encodeUtf8 formula) (encodeUtf8 proof)

def check (p : Problem) (flags : Flags) : Checked Verdict := checkProof p.formula p.proof flags

end Problem

/-- Check a proof for a formula, both given as text. -/
def checkTexts (formula proof : String) (flags : Flags) : Checked (Except SourceError Verdict) :=
  match Problem.ofTexts formula proof with
  | .error e => .ok (.error e)
  | .ok p => .ok <$> p.check flags

/-- Check each clause of a list on its own against a formula, both given as text. -/
def checkClauseTexts (formula clauses : String) : Checked (Except SourceError (List Bool)) :=
  match Problem.empty.readFormula (encodeUtf8 formula) with
  | (_, some e) => .ok (.error (.formula (.malformed e)))
  | (p, none) =>
    match p.readClauses (encodeUtf8 clauses) with
    | (_, .error e) => .ok (.error (.proof (.malformed e)))
    | (p, .ok cs) => .ok <$> areRedundant p.formula cs

end ClausalProof
