/-!
The tokens of a TOML text. A carriage return counts only as part of a line end, and a byte order
mark only at the start. A word is a run of letters, digits, dashes and underscores; it may be a key
or part of a number or a date. Strings are given by their contents.
-/

set_option autoImplicit false

namespace ClausalProof.Toml

inductive Token where
  | newline
  /-- Spaces and tabs. -/
  | blank (single : Bool)
  | comment
  | equals
  | period
  | comma
  | colon
  | plus
  | leftBrace
  | rightBrace
  | leftBracket
  | rightBracket
  | word (chars : List Char)
  | quoted (chars : List Char) (multiline : Bool)
deriving DecidableEq, Repr

def isWordChar (c : Char) : Bool := c.isAlphanum || c == '-' || c == '_'

def isBlankChar (c : Char) : Bool := c == ' ' || c == '\t'

/-- Characters of a comment: no control character but the tab. -/
def isCommentChar (c : Char) : Bool := c == '\t' || decide (' ' ≤ c)

/-- Characters of a string: no control character but the tab. -/
def isStringChar (c : Char) : Bool := isCommentChar c && c != '\x7f'

/-- A carriage return and line feed as one line end. -/
def foldLineEnds : List Char → List Char
  | '\r' :: '\n' :: cs => '\n' :: foldLineEnds cs
  | c :: cs => c :: foldLineEnds cs
  | [] => []

def hexDigit? (c : Char) : Option Nat :=
  if '0' ≤ c ∧ c ≤ '9' then some (c.toNat - 48)
  else if 'a' ≤ c ∧ c ≤ 'f' then some (c.toNat - 87)
  else if 'A' ≤ c ∧ c ≤ 'F' then some (c.toNat - 55)
  else none

/-- The character with the given hexadecimal number. -/
def unicode? (digits : List Char) : Option Char := do
  let values ← digits.mapM hexDigit?
  let n := values.foldl (fun n d => 16 * n + d) 0
  if n.isValidChar then some (Char.ofNat n) else none

/-- What an escape of one character stands for. -/
def escape? : Char → Option Char
  | '\x22' => some '\x22'
  | '\\' => some '\\'
  | 'b' => some '\x08'
  | 'f' => some '\x0c'
  | 'n' => some '\n'
  | 'r' => some '\r'
  | 't' => some '\t'
  | _ => none

abbrev Scanned := Option (List Char × List Char)

/-- The contents of a string continue with `c`. -/
def consChar (c : Char) (rest : Scanned) : Scanned := rest.map fun (s, r) => (c :: s, r)

theorem consChar_eq_some {c : Char} {x : Scanned} {t r : List Char} :
    consChar c x = some (t, r) ↔ ∃ u, x = some (u, r) ∧ t = c :: u := by
  unfold consChar
  rcases x with _ | ⟨u, q⟩
  · simp
  · simp only [Option.map_some, Option.some.injEq, Prod.mk.injEq]
    constructor
    · rintro ⟨rfl, rfl⟩
      exact ⟨u, ⟨rfl, rfl⟩, rfl⟩
    · rintro ⟨_, ⟨rfl, rfl⟩, rfl⟩
      exact ⟨rfl, rfl⟩

/-- A string in single quotes on one line, after its opening quote. -/
def literalLine : List Char → Scanned
  | [] => none
  | c :: cs =>
    if c = '\x27' then some ([], cs)
    else if isStringChar c then consChar c (literalLine cs)
    else none

/-- A string between triple single quotes, after the opening ones. Up to two quotes may stand right
    before the closing ones. -/
def literalBlock : List Char → Scanned
  | '\x27' :: '\x27' :: '\x27' :: '\x27' :: '\x27' :: cs => some (['\x27', '\x27'], cs)
  | '\x27' :: '\x27' :: '\x27' :: '\x27' :: cs => some (['\x27'], cs)
  | '\x27' :: '\x27' :: '\x27' :: cs => some ([], cs)
  | c :: cs => if c = '\n' ∨ isStringChar c then consChar c (literalBlock cs) else none
  | [] => none

/-- A string in double quotes on one line, after its opening quote. -/
def basicLine : List Char → Scanned
  | [] => none
  | '\x22' :: cs => some ([], cs)
  | '\\' :: 'u' :: a :: b :: c :: d :: cs => do consChar (← unicode? [a, b, c, d]) (basicLine cs)
  | '\\' :: 'U' :: a :: b :: c :: d :: e :: f :: g :: h :: cs => do
    consChar (← unicode? [a, b, c, d, e, f, g, h]) (basicLine cs)
  | '\\' :: c :: cs => do consChar (← escape? c) (basicLine cs)
  | c :: cs => if c ≠ '\\' ∧ isStringChar c then consChar c (basicLine cs) else none

/-- A string between triple double quotes, after the opening ones. A backslash at the end of a line
    skips the line end and all blanks and line ends after it. -/
def basicBlock : List Char → Scanned
  | [] => none
  | '\x22' :: '\x22' :: '\x22' :: '\x22' :: '\x22' :: cs => some (['\x22', '\x22'], cs)
  | '\x22' :: '\x22' :: '\x22' :: '\x22' :: cs => some (['\x22'], cs)
  | '\x22' :: '\x22' :: '\x22' :: cs => some ([], cs)
  | '\\' :: 'u' :: a :: b :: c :: d :: cs => do consChar (← unicode? [a, b, c, d]) (basicBlock cs)
  | '\\' :: 'U' :: a :: b :: c :: d :: e :: f :: g :: h :: cs => do
    consChar (← unicode? [a, b, c, d, e, f, g, h]) (basicBlock cs)
  | '\\' :: c :: cs =>
    if isBlankChar c ∨ c = '\n' then
      match _h : (c :: cs).dropWhile isBlankChar with
      | '\n' :: rest => basicBlock (rest.dropWhile fun d => isBlankChar d || d == '\n')
      | _ => none
    else do consChar (← escape? c) (basicBlock cs)
  | c :: cs => if c ≠ '\\' ∧ (c = '\n' ∨ isStringChar c) then consChar c (basicBlock cs) else none
termination_by cs => cs.length
decreasing_by
  all_goals simp_wf
  all_goals try omega
  have h₁ := (List.dropWhile_sublist isBlankChar (l := c :: cs)).length_le
  rw [_h] at h₁
  have h₂ := (List.dropWhile_sublist (fun d => isBlankChar d || d == '\n') (l := rest)).length_le
  simp at h₁
  omega

/-- Drop a line end right after the opening quotes. -/
def dropFirstLineEnd : List Char → List Char
  | '\n' :: cs => cs
  | cs => cs

/-- A string after its first single quote. -/
def literalString : List Char → Option (Token × List Char)
  | '\x27' :: '\x27' :: cs =>
    (literalBlock (dropFirstLineEnd cs)).map fun (s, rest) => (.quoted s true, rest)
  | '\x27' :: cs => some (.quoted [] false, cs)
  | cs => (literalLine cs).map fun (s, rest) => (.quoted s false, rest)

/-- A string after its first double quote. -/
def basicString : List Char → Option (Token × List Char)
  | '\x22' :: '\x22' :: cs =>
    (basicBlock (dropFirstLineEnd cs)).map fun (s, rest) => (.quoted s true, rest)
  | '\x22' :: cs => some (.quoted [] false, cs)
  | cs => (basicLine cs).map fun (s, rest) => (.quoted s false, rest)

/-- The token that starts with `c`, and what follows it. -/
def token? (c : Char) (cs : List Char) : Option (Token × List Char) :=
  match c with
  | '\n' => some (.newline, cs)
  | '#' => some (.comment, cs.dropWhile isCommentChar)
  | '=' => some (.equals, cs)
  | '.' => some (.period, cs)
  | ',' => some (.comma, cs)
  | ':' => some (.colon, cs)
  | '+' => some (.plus, cs)
  | '\x7b' => some (.leftBrace, cs)
  | '\x7d' => some (.rightBrace, cs)
  | '[' => some (.leftBracket, cs)
  | ']' => some (.rightBracket, cs)
  | '\x27' => literalString cs
  | '\x22' => basicString cs
  | c =>
    if isBlankChar c then
      some (.blank (c == ' ' && !cs.head?.any isBlankChar), cs.dropWhile isBlankChar)
    else if isWordChar c then
      some (.word (c :: cs.takeWhile isWordChar), cs.dropWhile isWordChar)
    else none

theorem length_literalLine_le {s t r : List Char} (h : literalLine s = some (t, r)) :
    r.length ≤ s.length := by
  fun_induction literalLine s generalizing t with
  | case1 => simp at h
  | case2 => simp_all
  | case3 c cs _ _ ih =>
    obtain ⟨u, hu, _⟩ := consChar_eq_some.1 h
    exact Nat.le_succ_of_le (ih hu)
  | case4 => simp at h

theorem length_literalBlock_le {s t r : List Char} (h : literalBlock s = some (t, r)) :
    r.length ≤ s.length := by
  fun_induction literalBlock s generalizing t with
  | case1 | case2 | case3 =>
    simp only [Option.some.injEq, Prod.mk.injEq] at h
    simp [← h.2]
    try omega
  | case4 c cs _ _ _ _ ih =>
    obtain ⟨u, hu, _⟩ := consChar_eq_some.1 h
    exact Nat.le_succ_of_le (ih hu)
  | case5 | case6 => simp at h

theorem length_basicLine_le {s t r : List Char} (h : basicLine s = some (t, r)) :
    r.length ≤ s.length := by
  fun_induction basicLine s generalizing t with
  | case1 | case7 => simp at h
  | case2 => simp_all
  | case3 a b c d cs ih | case4 a b c d e f g i cs ih =>
    obtain ⟨_, _, hc⟩ := Option.bind_eq_some_iff.1 h
    obtain ⟨u, hu, _⟩ := consChar_eq_some.1 hc
    have := ih hu
    simp only [List.length_cons]
    omega
  | case5 c cs _ _ ih =>
    obtain ⟨_, _, hc⟩ := Option.bind_eq_some_iff.1 h
    obtain ⟨u, hu, _⟩ := consChar_eq_some.1 hc
    have := ih hu
    simp only [List.length_cons]
    omega
  | case6 =>
    rename_i ih
    obtain ⟨u, hu, _⟩ := consChar_eq_some.1 h
    exact Nat.le_succ_of_le (ih hu)

theorem length_basicBlock_le {s t r : List Char} (h : basicBlock s = some (t, r)) :
    r.length ≤ s.length := by
  fun_induction basicBlock s generalizing t with
  | case1 => simp at h
  | case2 | case3 | case4 =>
    simp only [Option.some.injEq, Prod.mk.injEq] at h
    simp [← h.2]
    try omega
  | case5 a b c d cs ih | case6 a b c d e f g i cs ih =>
    obtain ⟨_, _, hc⟩ := Option.bind_eq_some_iff.1 h
    obtain ⟨u, hu, _⟩ := consChar_eq_some.1 hc
    have := ih hu
    simp only [List.length_cons]
    omega
  | case7 c cs _ _ _ rest hr ih =>
    have h₀ := ih h
    have h₁ := (List.dropWhile_sublist isBlankChar (l := c :: cs)).length_le
    have h₂ := (List.dropWhile_sublist (fun d => isBlankChar d || d == '\n') (l := rest)).length_le
    rw [hr] at h₁
    simp only [List.length_cons] at h₁ ⊢
    omega
  | case8 => simp at h
  | case9 =>
    rename_i ih
    obtain ⟨_, _, hc⟩ := Option.bind_eq_some_iff.1 h
    obtain ⟨u, hu, _⟩ := consChar_eq_some.1 hc
    have := ih hu
    simp only [List.length_cons]
    omega
  | case10 =>
    rename_i ih
    obtain ⟨u, hu, _⟩ := consChar_eq_some.1 h
    exact Nat.le_succ_of_le (ih hu)
  | case11 => simp at h

theorem length_dropFirstLineEnd_le (cs : List Char) :
    (dropFirstLineEnd cs).length ≤ cs.length := by
  unfold dropFirstLineEnd
  split <;> simp

theorem length_literalString_le {cs rest : List Char} {t : Token}
    (h : literalString cs = some (t, rest)) : rest.length ≤ cs.length := by
  unfold literalString at h
  split at h
  · rename_i cs
    obtain ⟨⟨s, r⟩, hs, hr⟩ := Option.map_eq_some_iff.1 h
    have h₁ := length_literalBlock_le hs
    have h₂ := length_dropFirstLineEnd_le cs
    simp only [Prod.mk.injEq] at hr
    simp only [List.length_cons, ← hr.2]
    omega
  · simp only [Option.some.injEq, Prod.mk.injEq] at h
    simp [← h.2]
  · obtain ⟨⟨s, r⟩, hs, hr⟩ := Option.map_eq_some_iff.1 h
    simp only [Prod.mk.injEq] at hr
    exact hr.2 ▸ length_literalLine_le hs

theorem length_basicString_le {cs rest : List Char} {t : Token}
    (h : basicString cs = some (t, rest)) : rest.length ≤ cs.length := by
  unfold basicString at h
  split at h
  · rename_i cs
    obtain ⟨⟨s, r⟩, hs, hr⟩ := Option.map_eq_some_iff.1 h
    have h₁ := length_basicBlock_le hs
    have h₂ := length_dropFirstLineEnd_le cs
    simp only [Prod.mk.injEq] at hr
    simp only [List.length_cons, ← hr.2]
    omega
  · simp only [Option.some.injEq, Prod.mk.injEq] at h
    simp [← h.2]
  · obtain ⟨⟨s, r⟩, hs, hr⟩ := Option.map_eq_some_iff.1 h
    simp only [Prod.mk.injEq] at hr
    exact hr.2 ▸ length_basicLine_le hs

theorem length_token_le {c : Char} {cs rest : List Char} {t : Token}
    (h : token? c cs = some (t, rest)) : rest.length ≤ cs.length := by
  have hd (p : Char → Bool) : (cs.dropWhile p).length ≤ cs.length :=
    (List.dropWhile_sublist p).length_le
  unfold token? at h
  split at h
  case h_12 => exact length_literalString_le h
  case h_13 => exact length_basicString_le h
  case h_14 =>
    split at h
    · simp only [Option.some.injEq, Prod.mk.injEq] at h
      exact h.2 ▸ hd _
    · split at h
      · simp only [Option.some.injEq, Prod.mk.injEq] at h
        exact h.2 ▸ hd _
      · simp at h
  all_goals
    simp only [Option.some.injEq, Prod.mk.injEq] at h
    first
      | exact h.2 ▸ hd _
      | exact h.2 ▸ Nat.le_refl _

/-- All tokens of a text, if each of its characters belongs to one. -/
def scan (cs : List Char) : Option (List Token) :=
  match cs with
  | [] => some []
  | c :: cs =>
    match _h : token? c cs with
    | none => none
    | some (t, rest) => (t :: ·) <$> scan rest
termination_by cs.length
decreasing_by
  have := length_token_le _h
  simp only [List.length_cons]
  omega

/-- The tokens of a text, without a byte order mark. -/
def tokens? (text : String) : Option (List Token) :=
  match text.toList with
  | '\ufeff' :: cs => scan (foldLineEnds cs)
  | cs => scan (foldLineEnds cs)

end ClausalProof.Toml
