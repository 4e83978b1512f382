import ClausalProof.Command.Programs

/-!
The command line. The first argument names the program and the others are its arguments. The files
that they may name are read before the program runs; what it prints and writes is put out after it.
-/

set_option autoImplicit false

namespace ClausalProof.Command

/-- The texts in an argument that may be file names: all of it, and the values of switches. -/
def fileNames (arg : String) : List String :=
  [arg, String.ofList (arg.toList.drop 2), "=".intercalate ((arg.splitOn "=").drop 1)].filter
    fun name => name != "" && name != "-"

/-- A file name with the names of the folders on the way to it. -/
def withParents (name : String) : List String :=
  let parts := name.splitOn "/"
  (List.range parts.length).filterMap fun n =>
    let parent := "/".intercalate (parts.take (n + 1))
    if parent = "" then none else some parent

/-- The system's code for an attempt to read a folder. -/
def folderCode : UInt32 := 21

def isFolderError : IO.Error → Bool
  | .inappropriateType _ code _ => code == folderCode
  | _ => false

def lookUp (name : String) : IO (Option (Place × Node)) := do
  let p := Place.ofName name
  if (Device.ofPlace? p).isSome then return none
  try
    return some (p, .file (← IO.FS.readBinFile name).toList)
  catch e => return if isFolderError e then some (p, .directory) else none

/-- Whether a text stands for standard input. -/
def isInput (name : String) : Bool :=
  name == "-" || Device.ofPlace? (.ofName name) == some .input

partial def readToEnd (input : IO.FS.Stream) (bytes : ByteArray) : IO ByteArray := do
  let chunk ← input.read 65536
  if chunk.isEmpty then return bytes else readToEnd input (bytes ++ chunk)

end ClausalProof.Command

open ClausalProof.Command in
def main (args : List String) : IO UInt32 := do
  let names := (args.flatMap fileNames).flatMap withParents
  let nodes := (← names.eraseDups.mapM lookUp).filterMap id
  let input ← if args.any isInput then readToEnd (← IO.getStdin) .empty else pure .empty
  let (code, e) := Program.run .builtIn (args.headD "") args.tail ⟨⟨nodes⟩, input.toList, #[]⟩
  for line in e.output do
    IO.println line
  for (p, node) in e.folder.nodes do
    match node with
    | .file bytes =>
      if !nodes.contains (p, node) then
        IO.FS.writeBinFile ("/".intercalate p) ⟨bytes.toArray⟩
    | _ => pure ()
  return UInt32.ofNat code
