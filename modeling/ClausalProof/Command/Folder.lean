import ClausalProof.Source

/-!
Files by name. A name is followed one step at a time, and each step starts in a folder: a name that
leads through a file, or through nothing, names nothing. Outside the working folder are the folders
above it, and the folders and devices that every system has.
-/

set_option autoImplicit false

namespace ClausalProof.Command

/-- The names on the way from the working folder. A slash at the start stands for the root, and `..`
    for a folder above. -/
abbrev Place := List String

namespace Place

def workingFolder : Place := []

def root : Place := ["/"]

/-- The folder around a place. The root is around itself. -/
def parent (p : Place) : Place :=
  if p = root then root
  else if p.all (· == "..") then p ++ [".."]
  else p.dropLast

/-- Follow one part of a name. -/
def step (p : Place) (part : String) : Place :=
  if part = "" ∨ part = "." then p
  else if part = ".." then p.parent
  else p ++ [part]

/-- Where a name starts. -/
def start (name : String) : Place := if name.startsWith "/" then root else workingFolder

/-- The place of a name, whether or not it can be reached. -/
def ofName (name : String) : Place := (name.splitOn "/").foldl step (start name)

def isInside (p : Place) : Bool := p.head?.all fun part => part != "/" && part != ".."

end Place

/-- What bytes are read from and written to without being kept. The null device gives nothing and
    forgets what it is given; the others stand for a program's own input and output. -/
inductive Device where
  | null
  | input
  | output
deriving DecidableEq, Repr

namespace Device

/-- The devices, with the places that lead to them. Reports of errors are not kept, so their place
    leads to the null device. -/
def places : List (Place × Device) :=
  [(["/", "dev", "null"], null), (["/", "dev", "stdin"], input),
    (["/", "dev", "stdout"], output), (["/", "dev", "stderr"], null)]

def ofPlace? (p : Place) : Option Device := places.lookup p

end Device

inductive Node where
  | file (bytes : List UInt8)
  | device (device : Device)
  | directory
deriving DecidableEq, Repr

structure Folder where
  nodes : List (Place × Node)
deriving DecidableEq, Repr

namespace Folder

/-- The longest name of a file, in bytes. -/
def maxPart : Nat := 255

/-- The longest way to a file, in bytes. -/
def maxName : Nat := 4095

/-- The folders in the root of every system. -/
def systemFolders : List String :=
  ["bin", "boot", "dev", "etc", "home", "lib", "media", "mnt", "opt", "proc", "root", "run", "sbin",
    "srv", "sys", "tmp", "usr", "var"]

/-- What is outside the working folder, whatever is in it. -/
def system : List (Place × Node) :=
  Device.places.map (fun (p, d) => (p, .device d)) ++
    systemFolders.map fun name => (Place.root ++ [name], .directory)

def ofFiles (files : List (String × List UInt8)) : Folder :=
  ⟨files.map fun (name, bytes) => (Place.ofName name, .file bytes)⟩

def node? (f : Folder) (p : Place) : Option Node :=
  if p.all (· == "..") || p == Place.root then some .directory
  else
    let nodes := system ++ f.nodes
    match nodes.lookup p with
    | some node => some node
    | none => if nodes.any fun (q, _) => p.isPrefixOf q then some .directory else none

/-- Only a folder can be entered. -/
def checkFolder (f : Folder) (p : Place) : Except FileError Unit :=
  match f.node? p with
  | none => .error .notFound
  | some .directory => .ok ()
  | some _ => .error .notDirectory

/-- Follow one part of a name, from a folder. -/
def enter (f : Folder) (p : Place) (part : String) : Except FileError Place := do
  f.checkFolder p
  if maxPart < part.utf8ByteSize then .error .nameTooLong else .ok (p.step part)

/-- Follow the parts of a name up to the last one, which need not exist. -/
def follow (f : Folder) (p : Place) (parts : List String) : Except FileError Place :=
  parts.foldlM f.enter p

/-- Names that cannot be followed at all. -/
def checkName (name : String) : Except FileError Unit :=
  if name.toList.contains '\x00' then .error .nulInName
  else if name = "" then .error .notFound
  else if maxName < name.utf8ByteSize then .error .nameTooLong
  else .ok ()

/-- Find the file or the device that a name leads to. -/
def find (f : Folder) (name : String) : Except FileError Node := do
  checkName name
  match f.node? (← f.follow (.start name) (name.splitOn "/")) with
  | none => .error .notFound
  | some .directory => .error .isDirectory
  | some node => .ok node

/-- A name without the slashes at its end. -/
def withoutSlashes (name : String) : String :=
  String.ofList (name.toList.reverse.dropWhile (· == '/')).reverse

/-- Find the place that a name gives to a file, which need not exist. A slash at the end makes the
    name that of a folder, whatever its last part is. -/
def placeFor (f : Folder) (name : String) : Except FileError Place := do
  checkName name
  let parts := (withoutSlashes name).splitOn "/"
  let around ← f.follow (.start name) parts.dropLast
  f.checkFolder around
  if withoutSlashes name ≠ name then .error .isDirectory
  else
    let p ← f.enter around (parts.getLastD "")
    if f.node? p = some .directory then .error .isDirectory else .ok p

/-- Create a file, or replace its contents. -/
def put (f : Folder) (p : Place) (bytes : List UInt8) : Folder :=
  ⟨(p, .file bytes) :: f.nodes.filter (·.1 != p)⟩

/-- The files in the working folder, with their names. -/
def files (f : Folder) : List (String × List UInt8) :=
  f.nodes.filterMap fun (p, node) =>
    match node with
    | .file bytes => if p.isInside then some ("/".intercalate p, bytes) else none
    | _ => none

end Folder
end ClausalProof.Command
