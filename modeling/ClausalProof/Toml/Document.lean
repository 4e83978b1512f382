import ClausalProof.Toml.Value

/-!
The tables of a TOML text. Each header opens a table, or one more table of an array of tables; a
table may be opened once. Pairs with dotted keys build tables of their own, which only further
dotted keys extend. Keys are not compared between pairs, nor between pairs and headers: whoever
reads a table decides what a repeated key means.
-/

set_option autoImplicit false

namespace ClausalProof.Toml

inductive Node where
  | value (d : Data)
  /-- A table that dotted keys have built. -/
  | dotted (fields : List (String × Node))
  /-- A table of a header, or the parent of one. -/
  | table (opened : Bool) (fields : List (String × Node))
  /-- An array of tables, each opened by a header of its own. -/
  | tables (elements : List Node)

abbrev Fields := List (String × Node)

namespace Node

def isPair : Node → Bool
  | .value _ => true
  | .dotted _ => true
  | _ => false

mutual
def toData : Node → Data
  | .value d => d
  | .dotted fields => .table false (fieldsToData fields)
  | .table _ fields => .table false (fieldsToData fields)
  | .tables elements => .list (elementsToData elements)
def fieldsToData : List (String × Node) → List (String × Data)
  | [] => []
  | (key, node) :: rest => (key, node.toData) :: fieldsToData rest
def elementsToData : List Node → List Data
  | [] => []
  | node :: rest => node.toData :: elementsToData rest
end

/-- The first entry under a key, among pairs or among headers. -/
def find? (pairs : Bool) (key : String) (fields : Fields) : Option Node :=
  (fields.find? fun (k, node) => k == key && node.isPair == pairs).map (·.2)

/-- Replace the first entry under a key, or append one. -/
def put (pairs : Bool) (key : String) (node : Node) : Fields → Fields
  | [] => [(key, node)]
  | (k, old) :: rest =>
    if k == key && old.isPair == pairs then (key, node) :: rest
    else (k, old) :: put pairs key node rest

/-- Add a pair. All parts of its key but the last lead through tables of dotted keys. -/
def addPair (d : Data) : List String → Fields → Option Fields
  | [], _ => none
  | [key], fields => some (fields ++ [(key, .value d)])
  | key :: parts, fields =>
    match find? true key fields with
    | some (.dotted inner) => do
      let inner ← addPair d parts inner
      return put true key (.dotted inner) fields
    | some _ => none
    | none => do
      let inner ← addPair d parts []
      return fields ++ [(key, .dotted inner)]

def addPairs (pairs : List Pair) (fields : Fields) : Option Fields :=
  pairs.foldlM (fun fields pair => addPair pair.value pair.key fields) fields

/-- Open a table below a node, which is absent if nothing is known of it. -/
def openTable (isArray : Bool) (fields : Fields) : List String → Option Node → Option Node
  | [], none => some (if isArray then .tables [.table true fields] else .table true fields)
  | [], some (.table false old) => if isArray then none else some (.table true (fields ++ old))
  | [], some (.tables elements) =>
    if isArray then some (.tables (elements ++ [.table true fields])) else none
  | [], some _ => none
  | key :: path, none => do
    let child ← openTable isArray fields path none
    return .table false [(key, child)]
  | key :: path, some (.table opened old) => do
    let child ← openTable isArray fields path (find? false key old)
    return .table opened (put false key child old)
  | key :: path, some (.tables elements) =>
    match elements.getLast? with
    | some (.table opened old) => do
      let child ← openTable isArray fields path (find? false key old)
      return .tables (elements.dropLast ++ [.table opened (put false key child old)])
    | _ => none
  | _ :: _, some _ => none

end Node

/-- An inline table from what stands between its braces. -/
def inlineTable? (items : List Item) : Option Data := do
  let fields ← Node.addPairs (← inlinePairs? items) []
  return .table true (Node.fieldsToData fields)

inductive Line where
  | pair (pair : Pair)
  | header (path : List String) (isArray : Bool)

def isRightBracket : Item → Bool
  | .token .rightBracket => true
  | _ => false

/-- A header from what follows its opening brackets. -/
def header? (isArray : Bool) (items : List Item) : Option Line := do
  let path ← key? (items.takeWhile (!isRightBracket ·))
  let rest ←
    match isArray, items.dropWhile (!isRightBracket ·) with
    | false, _ :: rest => some rest
    | true, _ :: .token .rightBracket :: rest => some rest
    | _, _ => none
  if rest.all Item.isIgnorable then some (.header path isArray) else none

/-- What a line says, if it says anything. -/
def line? (items : List Item) : Option (Option Line) :=
  match items.dropWhile Item.isIgnorable with
  | [] => some none
  | .token .leftBracket :: .token .leftBracket :: rest => some <$> header? true rest
  | .token .leftBracket :: rest => some <$> header? false rest
  | items => some <$> (.pair <$> pair? Item.isIgnorable items)

/-- A bracket or a brace that has not been closed, with the items in it, newest first. -/
structure Frame where
  isBrace : Bool
  items : List Item

/-- The lines read so far, and the line that is being read, newest first. -/
structure Reading where
  lines : List Line
  items : List Item
  frames : List Frame

namespace Reading

/-- Nothing but blanks, or a header, is on the line so far. -/
def inHeader (r : Reading) : Bool :=
  match r.items.reverse.dropWhile Item.isBlank with
  | [] => true
  | .token .leftBracket :: _ => true
  | _ => false

def append (r : Reading) (item : Item) : Reading :=
  match r.frames with
  | [] => { r with items := item :: r.items }
  | frame :: frames => { r with frames := { frame with items := item :: frame.items } :: frames }

def push (r : Reading) (isBrace : Bool) : Reading := { r with frames := ⟨isBrace, []⟩ :: r.frames }

def endLine (r : Reading) : Option Reading := do
  match ← line? r.items.reverse with
  | none => return { r with items := [] }
  | some line => return { r with lines := line :: r.lines, items := [] }

/-- Close the innermost bracket or brace. -/
def close (r : Reading) (isBrace : Bool) : Option Reading :=
  match r.frames with
  | [] => none
  | frame :: frames =>
    if frame.isBrace = isBrace then do
      let items := frame.items.reverse
      let d ← if isBrace then inlineTable? items else array? items
      return { r with frames := frames }.append (.value d)
    else none

/-- Take in one token. -/
def step (r : Reading) (t : Token) : Option Reading :=
  if r.frames.isEmpty && r.inHeader then
    match t with
    | .newline => r.endLine
    | t => some (r.append (.token t))
  else
    match t with
    | .newline => if r.frames.isEmpty then r.endLine else some (r.append (.token .newline))
    | .leftBracket => some (r.push false)
    | .leftBrace => some (r.push true)
    | .rightBracket => r.close false
    | .rightBrace => r.close true
    | t => some (r.append (.token t))

/-- The lines of a text whose brackets are all closed. -/
def lines? (tokens : List Token) : Option (List Line) := do
  let r ← tokens.foldlM step ⟨[], [], []⟩
  if !r.frames.isEmpty then none
  else return (← r.endLine).lines.reverse

end Reading

/-- A table with the pairs of its lines. -/
structure Section where
  path : List String
  isArray : Bool
  fields : Fields

/-- Add the lines after a header to the tables of a text. -/
def assemble (root : Node) (current : Section) : List Line → Option Node
  | [] => Node.openTable current.isArray current.fields current.path (some root)
  | .pair pair :: lines => do
    let fields ← Node.addPair pair.value pair.key current.fields
    assemble root { current with fields := fields } lines
  | .header path isArray :: lines => do
    let root ← Node.openTable current.isArray current.fields current.path (some root)
    assemble root ⟨path, isArray, []⟩ lines

def lines? (text : String) : Option (List Line) := do Reading.lines? (← tokens? text)

/-- The path of the only header, in lines that say nothing else. -/
def loneHeader? : List Line → Option (List String)
  | [.header path _] => some path
  | _ => none

/-- The table that some lines describe. -/
def ofLines? (lines : List Line) : Option Data :=
  Node.toData <$> assemble (.table false []) ⟨[], false, []⟩ lines

/-- What a header says if there is nothing else: the last part of its path is the value of the
    first. -/
def ofHeader? : List String → Option Data
  | [] => none
  | key :: path => path.getLast?.map fun name => .table false [(key, .text name)]

/-- The table that a text describes. -/
def read? (text : String) : Option Data := do
  let lines ← lines? text
  match loneHeader? lines with
  | some path => ofHeader? path
  | none => ofLines? lines

end ClausalProof.Toml
