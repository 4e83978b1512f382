import ClausalProof.Data
import ClausalProof.Toml.Token

/-!
The values of a TOML text, from the tokens that write them. Brackets and braces are read from the
inside out: by the time a bracket closes, what stands between is a flat list of tokens and of values
that have been read already, and the commas in it separate its elements.
-/

set_option autoImplicit false

namespace ClausalProof.Toml

/-- A token, or the value of a bracket or a brace that has been closed. -/
inductive Item where
  | token (t : Token)
  | value (d : Data)

def Item.isBlank : Item → Bool
  | .token (.blank _) => true
  | _ => false

/-- Items that may stand around the elements of an array. -/
def Item.isIgnorable : Item → Bool
  | .token (.blank _) => true
  | .token .newline => true
  | .token .comment => true
  | _ => false

/-- A run of digits with single underscores between them, and what follows the run. A leading zero
    may have to stand alone. -/
def digitRun (radix : Nat) (leadingZeros first zero underscore : Bool) :
    List Char → Option (List Char × List Char)
  | [] => if first || underscore then none else some ([], [])
  | c :: cs =>
    if (hexDigit? c).any (· < radix) then
      if !first && zero && !leadingZeros then none
      else
        (digitRun radix leadingZeros false (zero || (first && c == '0')) false cs).map
          fun (run, rest) => (c :: run, rest)
    else if c = '_' && !first && !underscore then
      digitRun radix leadingZeros false zero true cs
    else if first || underscore then none
    else some ([], c :: cs)

/-- A run of digits from its start, without the underscores. -/
def digits? (radix : Nat) (leadingZeros : Bool) (cs : List Char) : Option (List Char × List Char) :=
  digitRun radix leadingZeros true false false cs

/-- A minus, if there is one, and the rest. -/
def splitSign : List Char → Bool × List Char
  | '-' :: cs => (true, cs)
  | cs => (false, cs)

def valueOf (radix : Nat) (run : List Char) : Nat :=
  run.foldl (fun n c => radix * n + (hexDigit? c).getD 0) 0

/-- An integer of 64 bits. -/
def inRange (v : Int) : Option Data :=
  if Int64.minValue.toInt ≤ v ∧ v ≤ Int64.maxValue.toInt then some (.int v) else none

def decimal? (cs : List Char) : Option Data :=
  let (negative, cs) := splitSign cs
  match digits? 10 false cs with
  | some (run, []) => inRange (if negative then -(valueOf 10 run : Int) else valueOf 10 run)
  | _ => none

def radix? (radix : Nat) (cs : List Char) : Option Data :=
  match digits? radix true cs with
  | some (run, []) => inRange (valueOf radix run)
  | _ => none

/-- Where numbers of double precision start to round to infinity. -/
def doubleLimit : Nat := Nat.pow 2 1024 - Nat.pow 2 970

/-- Whether `mantissa` times ten to the `exponent` rounds to a finite number of double precision. -/
def isFinite (mantissa : List Char) (exponent : Int) : Bool :=
  let m := valueOf 10 mantissa
  let magnitude : Int := (mantissa.dropWhile (· == '0')).length + exponent
  m == 0 || decide (magnitude < 309) ||
    (decide (magnitude ≤ 309) &&
      (if 0 ≤ exponent then decide (m * Nat.pow 10 exponent.toNat < doubleLimit)
        else decide (m < doubleLimit * Nat.pow 10 (-exponent).toNat)))

/-- The exponent of a number, from what follows its digits. -/
def exponent? (suffix : List Char) (rest : List Item) : Option (Int × List Item) :=
  match suffix with
  | [] => some (0, rest)
  | [e] =>
    if e = 'e' ∨ e = 'E' then
      match (match rest with | .token .plus :: rest => rest | rest => rest) with
      | .token (.word w) :: rest =>
        match digits? 10 true w with
        | some (run, []) => some ((valueOf 10 run : Int), rest)
        | _ => none
      | _ => none
    else none
  | e :: w =>
    if e = 'e' ∨ e = 'E' then
      let (negative, w) := splitSign w
      match digits? 10 true w with
      | some (run, []) =>
        some (if negative then -(valueOf 10 run : Int) else valueOf 10 run, rest)
      | _ => none
    else none

/-- A number with a fraction or an exponent. -/
def real? (cs : List Char) (fraction : Option (List Char)) (rest : List Item) :
    Option (Data × List Item) := do
  let (run, suffix) ← digits? 10 false (splitSign cs).2
  match fraction with
  | none =>
    let (exponent, rest) ← exponent? suffix rest
    if isFinite run exponent then some (.real, rest) else none
  | some after =>
    if !suffix.isEmpty then none
    else
      let (places, suffix) ← digits? 10 true after
      let (exponent, rest) ← exponent? suffix rest
      if isFinite (run ++ places) (exponent - places.length) then some (.real, rest) else none

def number? (w : List Char) (rest : List Item) : Option (Data × List Item) :=
  match w with
  | '0' :: 'x' :: cs => (radix? 16 cs).map (·, rest)
  | '0' :: 'o' :: cs => (radix? 8 cs).map (·, rest)
  | '0' :: 'b' :: cs => (radix? 2 cs).map (·, rest)
  | w =>
    if w.contains 'e' || w.contains 'E' then real? w none rest
    else
      match rest with
      | .token .period :: .token (.word after) :: rest => real? w (some after) rest
      | .token .period :: _ => none
      | rest =>
        if ["inf", "-inf", "nan", "-nan"].contains (String.ofList w) then some (.real, rest)
        else (decimal? w).map (·, rest)

/-- A word that is one of the marks and is followed by another word. -/
def optionalWord (mark : Token) (rest : List Item) : Option (List Item) :=
  match rest with
  | .token t :: after =>
    if t = mark then
      match after with
      | .token (.word _) :: rest => some rest
      | _ => none
    else some rest
  | rest => some rest

/-- What follows the first word of a date or a time: perhaps a blank and the hour; then minutes,
    seconds, a fraction and an offset, if there is a colon. -/
def dateRest? (colonSeen : Bool) (rest : List Item) : Option (List Item) :=
  let rest :=
    match rest with
    | .token (.blank true) :: .token (.word _) :: rest => rest
    | rest => rest
  let (colonSeen, rest) :=
    match colonSeen, rest with
    | false, .token .colon :: rest => (true, rest)
    | colonSeen, rest => (colonSeen, rest)
  if colonSeen then
    match rest with
    | .token (.word _) :: .token .colon :: .token (.word _) :: rest => do
      let rest ← optionalWord .period rest
      let rest ← optionalWord .plus rest
      optionalWord .colon rest
    | _ => none
  else some rest

def hasExponentMinus : List Char → Bool
  | 'e' :: '-' :: _ => true
  | 'E' :: '-' :: _ => true
  | _ :: cs => hasExponentMinus cs
  | [] => false

/-- A word with a `T`, or with a dash that is neither a sign nor part of an exponent. -/
def isDateWord (w : List Char) : Bool :=
  w.contains 'T' || w.contains 't' || ((w.drop 1).contains '-' && !hasExponentMinus w)

def numberOrDate? (w : List Char) (rest : List Item) : Option (Data × List Item) :=
  if isDateWord w then (dateRest? false rest).map (.date, ·)
  else
    match rest with
    | .token .colon :: rest => (dateRest? true rest).map (.date, ·)
    | rest => number? w rest

/-- A value at the start of some items, and the items after it. -/
def value? : List Item → Option (Data × List Item)
  | .value d :: rest => some (d, rest)
  | .token (.quoted s _) :: rest => some (.text (String.ofList s), rest)
  | .token (.word w) :: rest =>
    if w = "true".toList then some (.bool true, rest)
    else if w = "false".toList then some (.bool false, rest)
    else if w = "inf".toList ∨ w = "nan".toList ∨ w.head?.any (fun c => c == '-' || c.isDigit) then
      numberOrDate? w rest
    else none
  | .token .plus :: .token (.word w) :: rest => number? w rest
  | _ => none

/-- The runs between the commas. -/
def splitCommas : List Item → List (List Item)
  | [] => [[]]
  | .token .comma :: rest => [] :: splitCommas rest
  | item :: rest =>
    match splitCommas rest with
    | [] => [[item]]
    | run :: runs => (item :: run) :: runs

def element? (run : List Item) : Option Data :=
  match value? (run.dropWhile Item.isIgnorable) with
  | some (d, rest) => if rest.all Item.isIgnorable then some d else none
  | none => none

/-- An array from what stands between its brackets. A comma may follow the last element. -/
def array? (items : List Item) : Option Data :=
  let runs := splitCommas items
  if runs.getLast?.any (·.all Item.isIgnorable) then .list <$> runs.dropLast.mapM element?
  else .list <$> runs.mapM element?

/-- The parts of a dotted key, blanks left out. -/
def keyParts? : List Item → Option (List String)
  | [.token (.word w)] => some [String.ofList w]
  | [.token (.quoted s false)] => some [String.ofList s]
  | .token (.word w) :: .token .period :: rest => (String.ofList w :: ·) <$> keyParts? rest
  | .token (.quoted s false) :: .token .period :: rest => (String.ofList s :: ·) <$> keyParts? rest
  | _ => none

def key? (items : List Item) : Option (List String) := keyParts? (items.filter (!·.isBlank))

def isEquals : Item → Bool
  | .token .equals => true
  | _ => false

structure Pair where
  key : List String
  value : Data

/-- A key, an equals sign and a value; the items after the value have to satisfy `p`. -/
def pair? (p : Item → Bool) (items : List Item) : Option Pair := do
  let key ← key? (items.takeWhile (!isEquals ·))
  match items.dropWhile (!isEquals ·) with
  | [] => none
  | _ :: rest =>
    let (d, rest) ← value? (rest.dropWhile Item.isBlank)
    if rest.all p then some ⟨key, d⟩ else none

/-- The pairs of an inline table. -/
def inlinePairs? (items : List Item) : Option (List Pair) :=
  if items.all Item.isBlank then some []
  else (splitCommas items).mapM (pair? Item.isBlank)

end ClausalProof.Toml
