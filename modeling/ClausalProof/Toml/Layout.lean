import ClausalProof.Data
import ClausalProof.Toml.Token

/-!
The text of a table, row by row. The plain fields of a table come first, one in a row, and then its
tables, each below a header with the path to it. Null is left out.
-/

set_option autoImplicit false

namespace ClausalProof.Toml

mutual
def valueText : Data → String
  | .int v => Decimal.ofInt v
  | .text s => "\x22" ++ s ++ "\x22"
  | .list items => "[" ++ ", ".intercalate (valueTexts items) ++ "]"
  | _ => ""
def valueTexts : List Data → List String
  | [] => []
  | d :: ds => valueText d :: valueTexts ds
end

inductive Row where
  | comment (text : String)
  | blank
  | field (key : String) (value : Data)
  /-- The header of a table, with the path to the table around it. -/
  | header (path : List String) (key : String)

def Row.text : Row → String
  | .comment text => "#" ++ text ++ "\n"
  | .blank => "\n"
  | .field key value => key ++ " = " ++ valueText value ++ "\n"
  | .header path key => "[" ++ ".".intercalate (path ++ [key]) ++ "]\n"

def rowsText (rows : List Row) : String := String.join (rows.map Row.text)

mutual
def fieldRows (path : List String) (key : String) : Data → List Row
  | .null => []
  | .table _ fields => .blank :: .header path key :: layout (path ++ [key]) fields
  | d => [.field key d]
/-- The rows of the table at a path. -/
def layout (path : List String) : List (String × Data) → List Row
  | [] => []
  | (key, d) :: fields => fieldRows path key d ++ layout path fields
end

/-- Words that may stand as keys. -/
def isKey (s : String) : Bool := !s.toList.isEmpty && s.toList.all isWordChar

/-- Characters that stand for themselves in double quotes. -/
def isPlainChar (c : Char) : Bool := decide (' ' ≤ c) && c != '\x7f' && c != '\x22' && c != '\\'

/-- An integer of 64 bits. -/
def isInRange (v : Int) : Bool := decide (Int64.minValue.toInt ≤ v ∧ v ≤ Int64.maxValue.toInt)

/-- Arrays have elements of one kind. -/
def areAlike (items : List Data) : Bool :=
  items.all Data.isInt || items.all Data.isText || items.all Data.isList

mutual
/-- Whether a value can stand in a row. -/
def isPlain : Data → Bool
  | .int v => isInRange v
  | .text s => s.toList.all isPlainChar
  | .list items => arePlain items && areAlike items
  | _ => false
def arePlain : List Data → Bool
  | [] => true
  | d :: ds => isPlain d && arePlain ds
end

/-- Plain fields stand before tables. -/
def tablesLast (tables : Bool) : List (String × Data) → Bool
  | [] => true
  | (_, d) :: fields =>
    (d.isNull || d.isTable || !tables) && tablesLast (tables || d.isTable) fields

/-- The first field that is present is no table, and no field has the key of another one. -/
def isOrdered (fields : List (String × Data)) : Bool :=
  (fields.find? (!·.2.isNull)).any (!·.2.isTable) && tablesLast false fields &&
    decide (fields.map (·.1)).Nodup

mutual
/-- Whether a value can be shown as a field. -/
def isShown : Data → Bool
  | .null => true
  | .table inBraces fields => !inBraces && areShown fields && isOrdered fields
  | d => isPlain d
def areShown : List (String × Data) → Bool
  | [] => true
  | (key, d) :: fields => isKey key && isShown d && areShown fields
end

/-- The text of a table that can be shown. -/
def write? : Data → Option String
  | .table inBraces fields =>
    if isShown (.table inBraces fields) then some (rowsText (layout [] fields)) else none
  | _ => none

end ClausalProof.Toml
