import ClausalProof.Fault

/-!
Lines of a report: comments start with `c`, the verdict with `s`. A labelled value stands in
columns, counted in characters.
-/

set_option autoImplicit false

namespace ClausalProof.Report

/-- The longest label, in bytes. -/
def maxLabel : Nat := 34

def padRight (width : Nat) (s : String) : String :=
  s ++ String.ofList (List.replicate (width - s.length) ' ')

def padLeft (width : Nat) (s : String) : String :=
  String.ofList (List.replicate (width - s.length) ' ') ++ s

def comment (text : String) : String := "c " ++ text

def labelled (label value : String) : Checked String := do
  require (label.utf8ByteSize ≤ maxLabel) .labelLength
  return comment (padRight 35 (label ++ ":") ++ " " ++ padLeft 15 value)

def solution (verdict : String) : String := "s " ++ verdict

end ClausalProof.Report
