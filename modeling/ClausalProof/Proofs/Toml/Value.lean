import ClausalProof.Proofs.Text.Numeral
import ClausalProof.Toml.Library

set_option autoImplicit false

/-!
What written values are read as. The characters of a value leave one item in the line that is being
read, whatever stands before them and whichever mark behind them (`Writes`). So it is for integers,
for texts without escapes, and for arrays of such values.
-/
namespace ClausalProof.Toml

theorem scan_cons {c : Char} {cs rest : List Char} {t : Token} (h : token? c cs = some (t, rest)) :
    scan (c :: cs) = (t :: ·) <$> scan rest := by
  rw [scan]
  split
  · rename_i hnone
    cases h.symm.trans hnone
  · rename_i hsome
    cases h.symm.trans hsome
    rfl

theorem isBlankChar_of_isWordChar {c : Char} (h : isWordChar c = true) : isBlankChar c = false := by
  cases hb : isBlankChar c with
  | false => rfl
  | true =>
    simp only [isBlankChar, Bool.or_eq_true, beq_iff_eq] at hb
    rcases hb with rfl | rfl <;> cases h

theorem token?_word {c : Char} {cs rest : List Char} (hc : isWordChar c = true)
    (hcs : ∀ d ∈ cs, isWordChar d = true) (hrest : rest.head?.any isWordChar = false) :
    token? c (cs ++ rest) = some (.word (c :: cs), rest) := by
  have hblank := isBlankChar_of_isWordChar hc
  obtain ⟨htake, hdrop⟩ := Text.span_append hcs hrest
  unfold token?
  split
  case h_14 => simp [hblank, hc, htake, hdrop]
  all_goals cases hc

theorem token?_blank {rest : List Char} (hrest : rest.head?.any isBlankChar = false) :
    token? ' ' rest = some (.blank true, rest) := by
  have hnil : ∀ c ∈ ([] : List Char), isBlankChar c = true := by simp
  have hdrop := (Text.span_append hnil hrest).2
  change some (Token.blank (' ' == ' ' && !rest.head?.any isBlankChar), rest.dropWhile isBlankChar) = _
  rw [hrest]
  exact congrArg (fun rest => some (Token.blank true, rest)) hdrop

namespace Reading

variable {r r' : Reading} {c : Char} {cs rest : List Char} {t : Token}

/-- Read on through some characters. -/
def take (r : Reading) (cs : List Char) : Option Reading := (scan cs).bind (·.foldlM step r)

theorem take_nil (r : Reading) : r.take [] = some r := by
  rw [take, scan]
  rfl

theorem take_cons (h : token? c cs = some (t, rest)) (hs : r.step t = some r') :
    r.take (c :: cs) = r'.take rest := by
  rw [take, take, scan_cons h]
  cases scan rest with
  | none => rfl
  | some tokens => simp [List.foldlM_cons, hs]

/-- The reading is within the value of a pair. -/
def InValue (r : Reading) : Prop := (r.frames.isEmpty && r.inHeader) = false

theorem InValue.step_leftBracket (h : r.InValue) : r.step .leftBracket = some (r.push false) :=
  if_neg (ne_true_of_eq_false h)

/-- Tokens that stand for values are kept for the end of the line. -/
theorem InValue.step (h : r.InValue) {d : Data} (ht : value? [.token t] = some (d, [])) :
    r.step t = some (r.append (.token t)) := by
  refine (if_neg (ne_true_of_eq_false h)).trans ?_
  cases t <;> first | rfl | cases ht

end Reading

/-- What may stand right behind a value. -/
def endsValue (rest : List Char) : Bool := rest.head?.all fun c => c == ',' || c == ']' || c == '\n'

theorem isWordChar_of_endsValue {rest : List Char} (h : endsValue rest = true) :
    rest.head?.any isWordChar = false := by
  cases rest with
  | nil => rfl
  | cons c rest =>
    simp only [endsValue, List.head?_cons, Option.all_some, Bool.or_eq_true, beq_iff_eq] at h
    rcases h with (rfl | rfl) | rfl <;> rfl

/-- Characters that are read as one item, which stands for a value. -/
structure Writes (s : List Char) (d : Data) : Prop where
  clean : '\r' ∉ s
  starts : ∃ c cs, s = c :: cs ∧ isBlankChar c = false
  item : ∃ item, value? [item] = some (d, []) ∧ ∀ (r : Reading) (rest : List Char), r.InValue →
    endsValue rest = true → r.take (s ++ rest) = (r.append item).take rest

section

variable {item : Item} {d : Data}

theorem isIgnorable_of_value? (h : value? [item] = some (d, [])) : item.isIgnorable = false := by
  cases item with
  | value => rfl
  | token t => cases t <;> first | rfl | cases h

theorem ne_comma_of_value? (h : value? [item] = some (d, [])) : item ≠ .token .comma := by
  rintro rfl
  cases h

end

theorem splitCommas_ne_nil (items : List Item) : splitCommas items ≠ [] := by
  fun_cases splitCommas items <;> simp

theorem splitCommas_comma (xs ys : List Item) :
    splitCommas (xs ++ .token .comma :: ys) = splitCommas xs ++ splitCommas ys := by
  fun_induction splitCommas xs with
  | case1 => rfl
  | case2 xs ih => exact congrArg ([] :: ·) ih
  | case3 x xs _ hnil => exact absurd hnil (splitCommas_ne_nil xs)
  | case4 x xs _ run runs hruns ih => simp [splitCommas, ih, hruns]

/-- The items between the brackets of an array with the given elements. -/
structure Elements (items : List Item) (ds : List Data) : Prop where
  runs : (splitCommas items).mapM element? = some ds
  last : (splitCommas items).getLast?.any (·.all Item.isIgnorable) = false

section

variable {items : List Item} {ds : List Data} {item : Item} {d : Data}

theorem Elements.array? (h : Elements items ds) : array? items = some (.list ds) := by
  rw [Toml.array?, h.last, h.runs]
  rfl

theorem splitCommas_singleton (h : value? [item] = some (d, [])) : splitCommas [item] = [[item]] := by
  rw [splitCommas, splitCommas]
  exact ne_comma_of_value? h

theorem elements_singleton (h : value? [item] = some (d, [])) : Elements [item] [d] := by
  have hitem := isIgnorable_of_value? h
  constructor <;> rw [splitCommas_singleton h]
  · simp [element?, hitem, h]
  · simp [hitem]

theorem Elements.snoc (h : Elements items ds) (hitem : value? [item] = some (d, [])) :
    Elements (items ++ [.token .comma, .token (.blank true), item]) (ds ++ [d]) := by
  have hne := isIgnorable_of_value? hitem
  have hrun : splitCommas [.token (.blank true), item] = [[.token (.blank true), item]] := by
    rw [splitCommas, splitCommas_singleton hitem]
    simp
  have helement : element? [.token (.blank true), item] = some d := by
    have hblank : Item.isIgnorable (.token (.blank true)) = true := rfl
    simp [element?, hblank, hne, hitem]
  constructor <;> rw [splitCommas_comma, hrun]
  · rw [List.mapM_append, h.runs]
    simp [helement]
  · simp [hne]

end

theorem toList_intercalate_cons (mark s : String) (ss : List String) :
    (mark.intercalate (s :: ss)).toList = s.toList ++ ss.flatMap fun t => mark.toList ++ t.toList := by
  induction ss generalizing s with
  | nil => simp
  | cons t ss ih =>
    rw [String.intercalate_cons_cons, String.toList_append, String.toList_append, ih, List.flatMap_cons,
      List.append_assoc, List.append_assoc]

theorem valueTexts_eq_map (items : List Data) : valueTexts items = items.map valueText := by
  induction items with
  | nil => rfl
  | cons d ds ih => rw [valueTexts, ih, List.map_cons]

/-- The elements of an array behind the first one, and its closing bracket. -/
theorem take_elements {ds : List Data} (hds : ∀ d ∈ ds, Writes (valueText d).toList d)
    {lines : List Line} {items inner : List Item} {frames : List Frame} {before : List Data}
    (h : Elements inner.reverse before) (rest : List Char) :
    Reading.take ⟨lines, items, ⟨false, inner⟩ :: frames⟩
      (ds.flatMap (fun d => ',' :: ' ' :: (valueText d).toList) ++ ']' :: rest) =
    (Reading.append ⟨lines, items, frames⟩ (.value (.list (before ++ ds)))).take rest := by
  -- `inner` holds what was read since the bracket, newest first, and stands for `before`
  induction ds generalizing inner before with
  | nil =>
    refine Reading.take_cons rfl ?_
    rw [List.append_nil]
    change ((array? inner.reverse).bind fun d =>
      some (Reading.append ⟨lines, items, frames⟩ (.value d))) = _
    rw [h.array?]
    rfl
  | cons d ds ih =>
    obtain ⟨hd, hds⟩ := List.forall_mem_cons.1 hds
    obtain ⟨item, hitem, hread⟩ := hd.item
    let more := ds.flatMap (fun d => ',' :: ' ' :: (valueText d).toList) ++ ']' :: rest
    let inner' := Item.token (.blank true) :: .token .comma :: inner
    have hmore : endsValue more = true := by cases ds <;> rfl
    have hstarts : ((valueText d).toList ++ more).head?.any isBlankChar = false := by
      obtain ⟨c, cs, htext, hc⟩ := hd.starts
      rw [htext]
      exact hc
    have hnext : Elements (item :: inner').reverse (before ++ [d]) := by
      simpa [inner'] using h.snoc hitem
    calc _ = Reading.take ⟨lines, items, ⟨false, inner⟩ :: frames⟩
          (',' :: ' ' :: ((valueText d).toList ++ more)) := by simp [more]
      _ = Reading.take ⟨lines, items, ⟨false, .token .comma :: inner⟩ :: frames⟩
          (' ' :: ((valueText d).toList ++ more)) := Reading.take_cons rfl rfl
      _ = Reading.take ⟨lines, items, ⟨false, inner'⟩ :: frames⟩ ((valueText d).toList ++ more) :=
        Reading.take_cons (token?_blank hstarts) rfl
      _ = Reading.take ⟨lines, items, ⟨false, item :: inner'⟩ :: frames⟩ more := hread _ more rfl hmore
      _ = _ := by
        rw [ih hds hnext, List.append_assoc]
        rfl

theorem writes_list {ds : List Data} (hds : ∀ d ∈ ds, Writes (valueText d).toList d) :
    Writes (valueText (.list ds)).toList (.list ds) := by
  have htext : (valueText (.list ds)).toList =
      '[' :: ((", ".intercalate (ds.map valueText)).toList ++ [']']) := by
    simp [valueText, valueTexts_eq_map]
  rw [htext]
  refine ⟨?_, ⟨_, _, rfl, rfl⟩, .value (.list ds), rfl, fun r rest hr hrest => ?_⟩
  · cases ds with
    | nil => simp
    | cons d ds =>
      rw [List.map_cons, toList_intercalate_cons]
      have hclean := fun d hd => (hds d hd).clean
      simpa using hclean
  · rcases r with ⟨lines, items, frames⟩
    rw [List.cons_append, Reading.take_cons rfl hr.step_leftBracket]
    cases ds with
    | nil => exact Reading.take_cons rfl rfl
    | cons d ds =>
      obtain ⟨hd, hds⟩ := List.forall_mem_cons.1 hds
      obtain ⟨item, hitem, hread⟩ := hd.item
      let more := ds.flatMap (fun d => ',' :: ' ' :: (valueText d).toList) ++ ']' :: rest
      have hmore : endsValue more = true := by cases ds <;> rfl
      have hfirst : Elements [item].reverse [d] := elements_singleton hitem
      calc _ = Reading.take ⟨lines, items, ⟨false, []⟩ :: frames⟩ ((valueText d).toList ++ more) := by
            rw [List.map_cons, toList_intercalate_cons, List.flatMap_map]
            simp [more, Reading.push]
        _ = Reading.take ⟨lines, items, ⟨false, [item]⟩ :: frames⟩ more := hread _ more rfl hmore
        _ = _ := take_elements hds hfirst rest

theorem hexDigit?_digit {d : Nat} (h : d < 10) : hexDigit? (Decimal.digit d) = some d := by
  revert d
  decide

theorem digitRun_digits {cs : List Char} (h : ∀ c ∈ cs, ∃ d < 10, c = Decimal.digit d) :
    digitRun 10 false false false false cs = some (cs, []) := by
  induction cs with
  | nil => rfl
  | cons c cs ih =>
    obtain ⟨⟨d, hd, rfl⟩, hcs⟩ := List.forall_mem_cons.1 h
    simp [digitRun, hexDigit?_digit hd, hd, ih hcs]

theorem digits?_digits (n : Nat) :
    digits? 10 false (Decimal.digits n) = some (Decimal.digits n, []) := by
  by_cases hn : n = 0
  · subst hn
    rw [Decimal.digits, if_pos (by decide)]
    rfl
  · obtain ⟨d, hd, hne, hhead⟩ := Decimal.exists_head?_digits hn
    obtain ⟨cs, hcs⟩ := List.head?_eq_some_iff.1 hhead
    have hrest : ∀ c ∈ cs, ∃ d < 10, c = Decimal.digit d := fun c hc =>
      Decimal.exists_of_mem_digits (hcs ▸ List.mem_cons_of_mem _ hc)
    have hzero : (Decimal.digit d == '0') = false := by
      clear hhead hcs
      revert d
      decide
    rw [hcs, digits?]
    simp [digitRun, hexDigit?_digit hd, hd, hzero, digitRun_digits hrest]

theorem valueOf_digits (n : Nat) : valueOf 10 (Decimal.digits n) = n := by
  induction n using Decimal.digits.induct with
  | case1 n hn =>
    rw [Decimal.digits, if_pos hn]
    simp [valueOf, hexDigit?_digit hn]
  | case2 n hn ih =>
    rw [valueOf] at ih
    rw [Decimal.digits, if_neg hn, valueOf, List.foldl_append, ih]
    simp only [List.foldl_cons, List.foldl_nil, hexDigit?_digit (Nat.mod_lt n (by decide : 10 > 0))]
    exact Nat.div_add_mod n 10

/-- Characters of a written integer. -/
def isIntChar (c : Char) : Bool := c == '-' || c.isDigit

theorem value?_int {w : List Char} (hw : ∀ c ∈ w, isIntChar c = true) (hne : w ≠ [])
    (hminus : '-' ∉ w.tail) : value? [.token (.word w)] = (decimal? w).map (·, []) := by
  have hletter : ∀ c, isIntChar c = false → c ∉ w := fun c hc hmem =>
    Bool.false_ne_true (hc.symm.trans (hw c hmem))
  have hname : ∀ (s : String) (c : Char), c ∈ s.toList → isIntChar c = false → w ≠ s.toList :=
    fun s c hmem hc heq => hletter c hc (heq ▸ hmem)
  have hhead : w.head?.any (fun c => c == '-' || c.isDigit) = true := by
    obtain ⟨c, cs, rfl⟩ := List.exists_cons_of_ne_nil hne
    exact hw c List.mem_cons_self
  have hdate : ¬ isDateWord w = true := by
    simp [isDateWord, hletter 'T' rfl, hletter 't' rfl, hminus]
  have hexponent : ¬ (w.contains 'e' || w.contains 'E') = true := by
    simp [hletter 'e' rfl, hletter 'E' rfl]
  have hreal : ¬ ["inf", "-inf", "nan", "-nan"].contains (String.ofList w) = true := by
    intro hmem
    have hn : ∀ s ∈ ["inf", "-inf", "nan", "-nan"], 'n' ∈ s.toList := by decide
    have hword := hn _ (List.contains_iff_mem.1 hmem)
    rw [String.toList_ofList] at hword
    exact hletter 'n' rfl hword
  have hnumber : number? w [] = (decimal? w).map (·, []) := by
    unfold number?
    split
    case h_1 => exact absurd (by simp) (hletter 'x' rfl)
    case h_2 => exact absurd (by simp) (hletter 'o' rfl)
    case h_3 => exact absurd (by simp) (hletter 'b' rfl)
    case h_4 => exact (if_neg hexponent).trans (if_neg hreal)
  rw [value?, if_neg (hname "true" 't' (by decide) rfl), if_neg (hname "false" 'f' (by decide) rfl),
    if_pos (.inr (.inr hhead))]
  exact (if_neg hdate).trans hnumber

theorem isIntChar_of_mem_digits {n : Nat} {c : Char} (h : c ∈ Decimal.digits n) :
    isIntChar c = true ∧ c ≠ '-' := by
  obtain ⟨d, hd, rfl⟩ := Decimal.exists_of_mem_digits h
  clear h
  revert d
  decide

theorem splitSign_digits (n : Nat) : splitSign (Decimal.digits n) = (false, Decimal.digits n) := by
  unfold splitSign
  split
  · rename_i cs hcs
    have hdash : '-' ∈ Decimal.digits n := hcs ▸ List.mem_cons_self
    exact absurd rfl (isIntChar_of_mem_digits hdash).2
  · rfl

theorem value?_ofInt (v : Int) :
    value? [.token (.word (Decimal.ofInt v).toList)] = (inRange v).map (·, []) := by
  cases v with
  | ofNat n =>
    have hchars := fun c => @isIntChar_of_mem_digits n c
    have hminus : '-' ∉ (Decimal.digits n).tail := fun h => (hchars _ (List.mem_of_mem_tail h)).2 rfl
    rw [Decimal.ofInt, Decimal.ofNat, String.toList_ofList,
      value?_int (fun c hc => (hchars c hc).1) (Decimal.digits_ne_nil n) hminus]
    simp only [decimal?, splitSign_digits, digits?_digits, valueOf_digits]
    rfl
  | negSucc n =>
    have hchars := fun c => @isIntChar_of_mem_digits (n + 1) c
    have htext : (Decimal.ofInt (.negSucc n)).toList = '-' :: Decimal.digits (n + 1) := by
      simp [Decimal.ofInt, Decimal.ofNat]
    have hall : ∀ c ∈ '-' :: Decimal.digits (n + 1), isIntChar c = true :=
      List.forall_mem_cons.2 ⟨rfl, fun c hc => (hchars c hc).1⟩
    rw [htext, value?_int hall (by simp) (fun h => (hchars _ h).2 rfl)]
    simp only [decimal?, splitSign, digits?_digits, valueOf_digits]
    rfl

theorem isIntChar_of_mem_ofInt {v : Int} {c : Char} (h : c ∈ (Decimal.ofInt v).toList) :
    isIntChar c = true := by
  cases v with
  | ofNat n =>
    rw [Decimal.ofInt, Decimal.ofNat, String.toList_ofList] at h
    exact (isIntChar_of_mem_digits h).1
  | negSucc n =>
    rw [Decimal.ofInt, Decimal.ofNat, String.toList_append, List.mem_append] at h
    rcases h with h | h
    · rw [List.mem_singleton.1 h]
      rfl
    · rw [String.toList_ofList] at h
      exact (isIntChar_of_mem_digits h).1

theorem isWordChar_of_isIntChar {c : Char} (h : isIntChar c = true) : isWordChar c = true := by
  simp only [isIntChar, Bool.or_eq_true] at h
  rcases h with h | h <;> simp [isWordChar, Char.isAlphanum, h]

theorem writes_int {v : Int} (h : isInRange v = true) :
    Writes (valueText (.int v)).toList (.int v) := by
  have hvalue : value? [.token (.word (valueText (.int v)).toList)] = some (.int v, []) := by
    rw [valueText, value?_ofInt, inRange, if_pos (of_decide_eq_true h)]
    rfl
  have hchars : ∀ c ∈ (valueText (.int v)).toList, isIntChar c = true := fun c hc => by
    rw [valueText] at hc
    exact isIntChar_of_mem_ofInt hc
  rcases htext : (valueText (.int v)).toList with _ | ⟨c, cs⟩
  · rw [htext] at hvalue
    cases hvalue
  · rw [htext] at hvalue hchars
    have hword : ∀ d ∈ c :: cs, isWordChar d = true := fun d hd => isWordChar_of_isIntChar (hchars d hd)
    obtain ⟨hc, hcs⟩ := List.forall_mem_cons.1 hword
    exact {
      clean := fun hr => nomatch hchars _ hr
      starts := ⟨c, cs, rfl, isBlankChar_of_isWordChar hc⟩
      item := ⟨_, hvalue, fun r rest hr hrest =>
        Reading.take_cons (token?_word hc hcs (isWordChar_of_endsValue hrest)) (hr.step hvalue)⟩ }

theorem basicLine_plain {s rest : List Char} (h : ∀ c ∈ s, isPlainChar c = true) :
    basicLine (s ++ '\x22' :: rest) = some (s, rest) := by
  induction s with
  | nil => rfl
  | cons c s ih =>
    obtain ⟨hc, hs⟩ := List.forall_mem_cons.1 h
    simp only [isPlainChar, Bool.and_eq_true, bne_iff_ne] at hc
    obtain ⟨⟨⟨hprinted, hdelete⟩, hquote⟩, hescape⟩ := hc
    have hstring : isStringChar c = true := by simp [isStringChar, isCommentChar, hprinted, hdelete]
    rw [List.cons_append, basicLine]
    · rw [if_pos ⟨hescape, hstring⟩, ih hs]
      rfl
    all_goals simp_all

theorem basicString_plain {s rest : List Char} (h : ∀ c ∈ s, isPlainChar c = true)
    (hrest : endsValue rest = true) :
    basicString (s ++ '\x22' :: rest) = some (.quoted s false, rest) := by
  cases s with
  | nil =>
    cases rest with
    | nil => rfl
    | cons c rest =>
      simp only [endsValue, List.head?_cons, Option.all_some, Bool.or_eq_true, beq_iff_eq] at hrest
      rcases hrest with (rfl | rfl) | rfl <;> rfl
  | cons c s =>
    have hline : basicLine (c :: s ++ '\x22' :: rest) = some (c :: s, rest) := basicLine_plain h
    have hquote : c ≠ '\x22' := by
      rintro rfl
      cases (List.forall_mem_cons.1 h).1
    rw [List.cons_append] at hline ⊢
    rw [basicString, hline]
    · rfl
    all_goals simp_all

theorem writes_text {s : String} (h : s.toList.all isPlainChar = true) :
    Writes (valueText (.text s)).toList (.text s) := by
  have hplain := List.all_eq_true.1 h
  have htext : (valueText (.text s)).toList = '\x22' :: (s.toList ++ ['\x22']) := by
    simp [valueText]
  have hvalue : value? [.token (.quoted s.toList false)] = some (.text s, []) := by
    rw [value?, String.ofList_toList]
  rw [htext]
  refine ⟨?_, ⟨_, _, rfl, rfl⟩, _, hvalue, fun r rest hr hrest => ?_⟩
  · have hclean : '\r' ∉ s.toList := fun hmem => nomatch hplain _ hmem
    simpa using hclean
  · rw [List.cons_append, List.append_assoc]
    exact Reading.take_cons (basicString_plain hplain hrest) (hr.step hvalue)

mutual
theorem writes_valueText : ∀ d : Data, isPlain d = true → Writes (valueText d).toList d
  | .int _, h => writes_int h
  | .text _, h => writes_text h
  | .list ds, h => writes_list (writes_valueTexts ds (Bool.and_eq_true_iff.1 h).1)
theorem writes_valueTexts : ∀ ds : List Data, arePlain ds = true →
    ∀ d ∈ ds, Writes (valueText d).toList d
  | [], _ => by simp
  | d :: ds, h => by
    obtain ⟨hd, hds⟩ := Bool.and_eq_true_iff.1 h
    exact List.forall_mem_cons.2 ⟨writes_valueText d hd, writes_valueTexts ds hds⟩
end

end ClausalProof.Toml
