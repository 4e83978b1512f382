/-!
The arguments of a program, and a reader for them (`Arguments.parse`). Switches may stand anywhere;
one without a value may be joined with others after a single dash, and one with a value takes the
rest of its argument or the next argument, which must not look like a switch. Two dashes end the
switches, a single dash is an ordinary argument. No switch may be given twice.
-/

set_option autoImplicit false

namespace ClausalProof.Command

structure Switch where
  short : Char
  long : String
  takesValue : Bool
deriving DecidableEq, Repr

structure Usage where
  program : String
  positionals : List String
  switches : List Switch
deriving DecidableEq, Repr

/-- Why there is nothing to run. -/
inductive Stop where
  | misuse
  | version
  | help
deriving DecidableEq, Repr

structure Arguments where
  positionals : List String
  /-- The switches that were given, by their long names, newest first. -/
  given : List (String × Option String)
deriving DecidableEq, Repr

namespace Arguments

def has (a : Arguments) (long : String) : Bool := a.given.any (·.1 == long)

def value? (a : Arguments) (long : String) : Option String :=
  (a.given.find? (·.1 == long)).bind (·.2)

def positional (a : Arguments) (i : Nat) : String := a.positionals.getD i ""

/-- How far the arguments have been read. -/
structure Scan where
  arguments : Arguments
  /-- The newest switch still needs its value. -/
  pending : Bool
  onlyPositionals : Bool

def give (s : Scan) (long : String) (value : Option String) (pending : Bool) : Scan :=
  { s with
    arguments := { s.arguments with given := (long, value) :: s.arguments.given }
    pending := pending }

def addPositional (u : Usage) (s : Scan) (arg : String) : Except Stop Scan :=
  if s.arguments.positionals.length < u.positionals.length then
    .ok { s with
      arguments := { s.arguments with positionals := s.arguments.positionals ++ [arg] } }
  else .error .misuse

/-- Give the newest switch its value. -/
def addValue (s : Scan) (arg : String) : Scan :=
  match s.arguments.given with
  | [] => s
  | (long, _) :: given =>
    { s with
      arguments := { s.arguments with given := (long, some arg) :: given }
      pending := false }

/-- A switch by its long name, after the dashes. -/
def long (u : Usage) (s : Scan) (body : List Char) : Except Stop Scan :=
  let name := String.ofList (body.takeWhile (· != '='))
  let value :=
    if body.contains '=' then
      some (String.ofList ((body.dropWhile (· != '=')).dropWhile (· == '=')))
    else none
  match u.switches.find? (·.long == name) with
  | some switch =>
    if switch.takesValue then .ok (give s name value value.isNone)
    else .ok (give s name none false)
  | none =>
    if name = "help" then .error .help
    else if name = "version" then .error .version
    else .error .misuse

/-- Switches by their short names, after the dash. -/
def short (u : Usage) (s : Scan) : List Char → Except Stop Scan
  | [] => .ok s
  | c :: rest =>
    match u.switches.find? (·.short == c) with
    | some switch =>
      if switch.takesValue then
        if rest.isEmpty then .ok (give s switch.long none true)
        else .ok (give s switch.long (some (String.ofList (rest.dropWhile (· == '=')))) false)
      else short u (give s switch.long none false) rest
    | none =>
      if c = 'h' then .error .help
      else if c = 'V' then .error .version
      else .error .misuse

def step (u : Usage) (s : Scan) (arg : String) : Except Stop Scan :=
  let body := arg.toList.dropWhile (· == '-')
  if s.onlyPositionals then addPositional u s arg
  else if arg = "--" then .ok { s with onlyPositionals := true }
  else if arg.startsWith "--" then long u s body
  else if arg.startsWith "-" && arg != "-" then short u s body
  else if s.pending then .ok (addValue s arg)
  else addPositional u s arg

/-- Whether a switch that takes a value has none. -/
def lacksValue (u : Usage) (given : String × Option String) : Bool :=
  given.2.isNone && u.switches.any fun switch => switch.long == given.1 && switch.takesValue

/-- All positional arguments are there, no switch is there twice, and none lacks its value. -/
def complete (u : Usage) (a : Arguments) : Bool :=
  a.positionals.length == u.positionals.length &&
    decide (a.given.map (·.1)).Nodup && !a.given.any (lacksValue u)

def parse (u : Usage) (args : List String) : Except Stop Arguments := do
  let s ← args.foldlM (step u) ⟨⟨[], []⟩, false, false⟩
  if complete u s.arguments then .ok s.arguments else .error .misuse

end Arguments

/-- Why a text is not a count. -/
inductive CountError where
  | empty
  | invalidDigit
  | tooLarge
deriving DecidableEq, Repr

def CountError.message : CountError → String
  | .empty => "cannot parse integer from empty string"
  | .invalidDigit => "invalid digit found in string"
  | .tooLarge => "number too large to fit in target type"

/-- Continue a count of 64 bits whose digits so far have value `n`. -/
def countFrom (n : Nat) : List Char → Except CountError Nat
  | [] => .ok n
  | c :: cs =>
    if !c.isDigit then .error .invalidDigit
    else
      let m := 10 * n + (c.toNat - 48)
      if m < UInt64.size then countFrom m cs else .error .tooLarge

/-- A count with an optional plus. -/
def count (text : String) : Except CountError Nat :=
  match text.toList with
  | [] => .error .empty
  | ['+'] => .error .invalidDigit
  | '+' :: cs => countFrom 0 cs
  | cs => countFrom 0 cs

end ClausalProof.Command
