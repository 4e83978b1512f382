import ClausalProof.Toml.Document
import ClausalProof.Toml.Layout

/-!
TOML as a library does it. Verdicts are written and read by any such library; the one that is built
in here shows and reads the whole of the format that verdicts need.
-/

set_option autoImplicit false

namespace ClausalProof.Toml

/-- Texts from data and data from texts, and records from data. -/
structure Library where
  write : Data → Option String
  read : String → Option Data
  reader : Data.Reader

def builtIn : Library where
  write := write?
  read := read?
  reader := Data.reader Data.isEmptyTable

end ClausalProof.Toml
