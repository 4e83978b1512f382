import ClausalProof.Command.Arguments
import ClausalProof.Source
import ClausalProof.Toml.Library

/-!
What programs leave to libraries: their arguments, archives and TOML. The programs are given for any
libraries. The built-in ones run them on files that are not packed: they unpack no archive.
-/

set_option autoImplicit false

namespace ClausalProof.Command

/-- The formats of packed files. -/
inductive Archive where
  | zstd
  | gzip
  | bzip2
  | lz4
  | xz
deriving DecidableEq, Repr

namespace Archive

def extension : Archive → String
  | .zstd => ".zst"
  | .gzip => ".gz"
  | .bzip2 => ".bz2"
  | .lz4 => ".lz4"
  | .xz => ".xz"

/-- The format of a file, by the end of its name. -/
def ofName? (name : String) : Option Archive :=
  [zstd, gzip, bzip2, lz4, xz].find? fun a => a.extension.toList.isSuffixOf name.toList

end Archive

structure Libraries where
  arguments : Usage → List String → Except Stop Arguments
  /-- The contents of an archive, from its bytes. -/
  unpack : Archive → List UInt8 → Except UnpackError (List UInt8)
  toml : Toml.Library

namespace Libraries

/-- The contents of a file, from its name and its bytes. -/
def contents (lib : Libraries) (name : String) (bytes : List UInt8) :
    Except FileError (List UInt8) :=
  match Archive.ofName? name with
  | none => .ok bytes
  | some a => (lib.unpack a bytes).mapError .packed

def builtIn : Libraries where
  arguments := Arguments.parse
  unpack a _ := .error ⟨false, "cannot unpack " ++ a.extension ++ " files"⟩
  toml := Toml.builtIn

end Libraries
end ClausalProof.Command
