import ClausalProof.Command.Folder
import ClausalProof.Command.Libraries

/-!
What a program sees and changes: the files of a folder, its standard input and the lines that it
prints. Standard input is read to its end, so reading it again gives nothing.
-/

set_option autoImplicit false

namespace ClausalProof.Command

structure Environment where
  folder : Folder
  input : List UInt8
  output : Array String
deriving DecidableEq, Repr

abbrev Action := StateM Environment

def print (line : String) : Action Unit := modify fun e => { e with output := e.output.push line }

def printAll (lines : List String) : Action Unit :=
  modify fun e => { e with output := e.output ++ lines.toArray }

/-- Print a text that is made of whole lines. -/
def printText (text : String) : Action Unit := printAll (text.splitOn "\n").dropLast

def readInput : Action (List UInt8) := do
  let e ← get
  set { e with input := [] }
  return e.input

def readNode : Node → Action (List UInt8)
  | .file bytes => return bytes
  | .device .input => readInput
  | _ => return []

/-- Read a file and unpack it, or standard input if its name is a dash. -/
def readSource (lib : Libraries) (name : String) : Action (Except FileError (List UInt8)) := do
  if name = "-" then return .ok (← readInput)
  else
    match (← get).folder.find name with
    | .error why => return .error why
    | .ok node => return lib.contents name (← readNode node)

/-- Write a text that is made of whole lines. -/
def writeFile (name text : String) : Action (Except FileError Unit) := do
  let e ← get
  match e.folder.placeFor name with
  | .error why => return .error why
  | .ok p =>
    match Device.ofPlace? p with
    | none => set { e with folder := e.folder.put p (Text.encodeUtf8 text) }
    | some .output => printText text
    | some _ => pure ()
    return .ok ()

end ClausalProof.Command
