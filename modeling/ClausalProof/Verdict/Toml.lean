import ClausalProof.Toml.Library

/-!
Verdicts as TOML, by some library: witness files are a comment and a verdict.
-/

set_option autoImplicit false

namespace ClausalProof.Verdict

def toToml (lib : Toml.Library) (v : Verdict) : Option String := lib.write v.toData

def ofToml? (lib : Toml.Library) (text : String) : Option Verdict := do
  lib.reader.verdict? (← lib.read text)

/-- The contents of a witness file. -/
def witnessText (lib : Toml.Library) (v : Verdict) : Option String :=
  (v.toToml lib).map ("# Failure witness produced by drup\n" ++ ·)

end ClausalProof.Verdict
