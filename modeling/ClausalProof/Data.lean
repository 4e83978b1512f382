import ClausalProof.Verdict

/-!
Values of a data format, and how literals, steps and verdicts are written as such values and read
from them. A record is written with all its fields, in order, and null for an absent one. What a
value stands for is left to a library (`Reader`): the reader of each record only says which fields
it has and which of them may be absent.
-/

set_option autoImplicit false

namespace ClausalProof

inductive Data where
  | null
  | bool (value : Bool)
  | int (value : Int)
  /-- A number with a fraction or an exponent. No record has one, so its value is not kept. -/
  | real
  /-- A date or a time. No record has one, so its value is not kept. -/
  | date
  | text (value : String)
  | list (items : List Data)
  /-- A table that stands in braces, or one that headers and dotted keys build up. -/
  | table (inBraces : Bool) (fields : List (String × Data))

namespace Data

def isNull : Data → Bool
  | .null => true
  | _ => false

def isInt : Data → Bool
  | .int _ => true
  | _ => false

def isText : Data → Bool
  | .text _ => true
  | _ => false

def isList : Data → Bool
  | .list _ => true
  | _ => false

def isTable : Data → Bool
  | .table _ _ => true
  | _ => false

/-- A value that may be absent. -/
def ofOption {α : Type} (toData : α → Data) : Option α → Data
  | none => .null
  | some a => toData a

/-- How a library reads the parts of records. -/
structure Reader where
  /-- The values of the named fields of a record, in the order of the names. -/
  fields : List String → Data → Option (List (Option Data))
  /-- The name of a case that has no contents. -/
  name : Data → Option String
  /-- The name of a case and its contents. -/
  case : Data → Option (String × Data)
  items : Data → Option (List Data)
  /-- An integer of 32 bits. -/
  int : Data → Option Int
  /-- A count of 64 bits. -/
  count : Data → Option Nat

namespace Reader

variable (r : Reader)

/-- The smallest integer of 32 bits is as little a literal as 0. -/
def literal? (d : Data) : Option Literal := do
  let v ← r.int d
  if v = 0 ∨ v = Int32.minValue.toInt then none else some (.ofInt v)

def list? {α : Type} (read : Data → Option α) (d : Data) : Option (List α) := do
  (← r.items d).mapM read

def clause? : Data → Option Clause := r.list? r.literal?

def step? (d : Data) : Option Step :=
  match r.case d with
  | some ("Lemma", c) => .add <$> r.clause? c
  | some ("Deletion", c) => .delete <$> r.clause? c
  | _ => none

def outcome? (d : Data) : Option Outcome := (r.name d).bind Outcome.ofName?

/-- A field that may be absent. -/
def optional {α : Type} (read : Data → Option α) : Option Data → Option (Option α)
  | none => some none
  | some d => some <$> read d

def rup? (d : Data) : Option RupFailure := do
  let [clause, chain] ← r.fields ["clause", "chain"] d | none
  return ⟨← clause.bind r.clause?, ← chain.bind r.clause?⟩

def rat? (d : Data) : Option RatFailure := do
  let [clause, pivotClause, rup] ← r.fields ["clause", "pivot_clause", "rup_info"] d | none
  return ⟨← clause.bind r.clause?, ← pivotClause.bind r.clause?, ← rup.bind r.rup?⟩

def verdict? (d : Data) : Option Verdict := do
  let [outcome, step, accepted, rup, rat] ←
    r.fields ["outcome", "proof_step", "steps", "rup_info", "rat_info"] d | none
  return ⟨← outcome.bind r.outcome?, ← optional r.count step, ← optional (r.list? r.clause?) accepted,
    ← optional r.rup? rup, ← optional r.rat? rat⟩

end Reader

/-! A reader for data from texts: a record is read from a table, whose further keys are ignored, or
from the list of its fields in order. -/

def unlessNull (d : Data) : Option Data := if d.isNull then none else some d

/-- The named fields of a record. No name may be there twice. -/
def fields? (names : List String) : Data → Option (List (Option Data))
  | .list items => if items.length = names.length then some (items.map unlessNull) else none
  | .table _ fields =>
    names.mapM fun name =>
      match fields.filter (·.1 == name) with
      | [] => some none
      | [(_, value)] => some value.unlessNull
      | _ => none
  | _ => none

/-- A name on its own: a text, or the one key of a table in braces whose value says nothing. What
    says nothing depends on the format. -/
def name? (saysNothing : Data → Bool) : Data → Option String
  | .text s => some s
  | .table true [(key, value)] => if saysNothing value then some key else none
  | _ => none

def isEmptyTable : Data → Bool
  | .table true [] => true
  | _ => false

/-- A case with contents is a table with one key. -/
def case? : Data → Option (String × Data)
  | .table _ [case] => some case
  | _ => none

def items? : Data → Option (List Data)
  | .list items => some items
  | _ => none

def int? : Data → Option Int
  | .int v => if Int32.minValue.toInt ≤ v ∧ v ≤ Int32.maxValue.toInt then some v else none
  | _ => none

def count? : Data → Option Nat
  | .int v => if 0 ≤ v ∧ v < UInt64.size then some v.toNat else none
  | _ => none

def reader (saysNothing : Data → Bool) : Reader where
  fields := fields?
  name := name? saysNothing
  case := case?
  items := items?
  int := int?
  count := count?

end Data

def Literal.toData (l : Literal) : Data := .int l.toInt

def Clause.toData (c : Clause) : Data := .list (c.map Literal.toData)

def Formula.toData (f : Formula) : Data := .list (f.map Clause.toData)

def RupFailure.toData (r : RupFailure) : Data :=
  .table false [("clause", Clause.toData r.clause), ("chain", Clause.toData r.chain)]

def RatFailure.toData (r : RatFailure) : Data :=
  .table false [("clause", Clause.toData r.clause), ("pivot_clause", Clause.toData r.pivotClause),
    ("rup_info", r.rup.toData)]

def Verdict.toData (v : Verdict) : Data :=
  .table false [("outcome", .text v.outcome.name), ("proof_step", .ofOption (fun n : Nat => .int n) v.step),
    ("steps", .ofOption Formula.toData v.accepted), ("rup_info", .ofOption RupFailure.toData v.rup),
    ("rat_info", .ofOption RatFailure.toData v.rat)]

end ClausalProof
