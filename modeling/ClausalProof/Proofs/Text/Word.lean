import ClausalProof.Proofs.Text.Numeral

set_option autoImplicit false

/-!
What the number readers do on any bytes. Behind an optional minus they look at the whole run of
digits: a run of a value that fits is consumed, of any other only the longest part that fits. Words of
64 bits are enough for that, as no step of their arithmetic leaves the range.
-/
namespace ClausalProof.Text

/-- The minus that the bytes start with, if they do. -/
def sign : List UInt8 → List UInt8
  | [] => []
  | b :: _ => if b = dash then [dash] else []

def unsigned (bytes : List UInt8) : List UInt8 := bytes.drop (sign bytes).length

/-- The digits behind the sign, up to the first byte that is none. -/
def digitRun (bytes : List UInt8) : List UInt8 := (unsigned bytes).takeWhile isDigit

def behindRun (bytes : List UInt8) : List UInt8 := (unsigned bytes).dropWhile isDigit

/-- The number that the sign and the run write. -/
def signedValue (bytes : List UInt8) : Int :=
  if sign bytes = [] then numeral 0 (digitRun bytes) else -(numeral 0 (digitRun bytes))

theorem sign_append_unsigned (bytes : List UInt8) : sign bytes ++ unsigned bytes = bytes := by
  cases bytes with
  | nil => rfl
  | cons b rest =>
    by_cases hb : b = dash <;> simp [unsigned, sign, hb]

theorem digitRun_append_behindRun (bytes : List UInt8) :
    digitRun bytes ++ behindRun bytes = unsigned bytes :=
  List.takeWhile_append_dropWhile

theorem isDigit_of_mem_digitRun {bytes : List UInt8} {b : UInt8} (hb : b ∈ digitRun bytes) :
    isDigit b = true :=
  List.all_eq_true.1 List.all_takeWhile b hb

theorem behindRun_head (bytes : List UInt8) : (behindRun bytes).head?.any isDigit = false := by
  have hhead := List.head?_dropWhile_not isDigit (unsigned bytes)
  rw [behindRun]
  cases hrest : (unsigned bytes).dropWhile isDigit with
  | nil => rfl
  | cons b rest =>
    rw [hrest] at hhead
    exact hhead

/-- The sign is consumed before the digits are looked at. -/
theorem number64_eq_natural (c : Cursor) :
    number64 c = match natural ⟨unsigned c.rest, c.position.past (sign c.rest)⟩ with
      | .ok v d => .ok (if sign c.rest = [] then (v : Int) else -(v : Int)) d
      | .error e d => .error e d := by
  obtain ⟨bytes, p⟩ := c
  rw [number64]
  cases bytes with
  | nil => rfl
  | cons b rest =>
    by_cases hb : b = dash
    · subst hb
      rfl
    · have hpeek : ¬ Cursor.peek? ⟨b :: rest, p⟩ = some dash := fun h => hb (Option.some.inj h)
      have hsign : sign (b :: rest) = [] := if_neg hb
      simp only [if_neg hpeek, unsigned, hsign]
      rfl

/-- `fits` is the longest of the first parts of a run that write a number of 64 bits. -/
structure LongestFitting (run fits : List UInt8) : Prop where
  starts : fits <+: run
  le_max : numeral 0 fits ≤ 9223372036854775807
  longest : ∀ ds, ds <+: run → numeral 0 ds ≤ 9223372036854775807 → ds <+: fits

theorem LongestFitting.of_overflow {fits more : List UInt8} {b : UInt8}
    (hfits : numeral 0 fits ≤ maxNumber) (hover : maxNumber < numeral 0 (fits ++ [b])) :
    LongestFitting (fits ++ b :: more) fits where
  starts := List.prefix_append _ _
  le_max := hfits
  longest := by
    intro ds hds hle
    have hnext : fits ++ [b] <+: fits ++ b :: more := by
      rw [List.append_cons fits b more]
      exact List.prefix_append _ _
    rcases List.prefix_or_prefix_of_prefix hnext hds with ⟨es, rfl⟩ | hshort
    · -- the value only grows, and it was too large already
      have hgrows := le_numeral (numeral 0 (fits ++ [b])) es
      rw [← numeral_append] at hgrows
      exact absurd (Nat.lt_of_lt_of_le hover hgrows) (Nat.not_lt.2 hle)
    · rcases List.prefix_concat_iff.1 hshort with rfl | hshort
      · exact absurd hover (Nat.not_lt.2 hle)
      · exact hshort

theorem digitsFrom_overflow {v : Nat} {bs : List UInt8} (hbs : ∀ b ∈ bs, isDigit b = true)
    (hv : v ≤ maxNumber) (hover : maxNumber < numeral v bs) (rest : List UInt8) (p : Position) :
    ∃ fits b more, bs = fits ++ b :: more ∧ numeral v fits ≤ maxNumber ∧
      maxNumber < numeral v (fits ++ [b]) ∧
      digitsFrom v p (bs ++ rest) =
        .error ⟨.overflow, p.past fits⟩ ⟨b :: more ++ rest, p.past fits⟩ := by
  induction bs generalizing v p with
  | nil => exact absurd hover (Nat.not_lt.2 hv)
  | cons b bs ih =>
    have hb := hbs b List.mem_cons_self
    rw [List.cons_append, digitsFrom, if_pos hb]
    by_cases hfits : 10 * v + (b.toNat - 48) ≤ maxNumber
    · obtain ⟨fits, d, more, rfl, hle, hlt, hread⟩ :=
        ih (fun d hd => hbs d (List.mem_cons_of_mem _ hd)) hfits hover (p.after b)
      exact ⟨b :: fits, d, more, rfl, hle, hlt, by rw [if_pos hfits, hread]; rfl⟩
    · exact ⟨[], b, bs, rfl, hv, Nat.lt_of_not_le hfits, by rw [if_neg hfits]; rfl⟩

/-- A run that is too large is consumed up to the longest part that fits. -/
theorem natural_overflow {bs : List UInt8} (hbs : ∀ b ∈ bs, isDigit b = true)
    (hover : maxNumber < numeral 0 bs) (rest : List UInt8) (p : Position) :
    ∃ fits left, LongestFitting bs fits ∧ bs = fits ++ left ∧
      natural ⟨bs ++ rest, p⟩ = .error ⟨.overflow, p.past fits⟩ ⟨left ++ rest, p.past fits⟩ := by
  have hhead : (bs ++ rest).head?.any isDigit = true := by
    cases bs with
    | nil => exact absurd hover (Nat.not_lt_zero _)
    | cons b bs => exact hbs b List.mem_cons_self
  obtain ⟨fits, b, more, rfl, hle, hlt, hread⟩ :=
    digitsFrom_overflow hbs (Nat.zero_le _) hover rest p
  refine ⟨fits, b :: more, .of_overflow hle hlt, rfl, ?_⟩
  rw [natural, Cursor.peek?, if_pos hhead]
  exact hread

theorem natural_of_no_digit {bytes : List UInt8} (h : bytes.head?.any isDigit = false)
    (p : Position) : natural ⟨bytes, p⟩ = .error ⟨.number, p⟩ ⟨bytes, p⟩ := by
  rw [natural, Cursor.peek?, h]
  rfl

/-- The three outcomes of reading a number, by what the run of digits is. -/
theorem number64_cases (c : Cursor) :
    (digitRun c.rest = [] ∧ number64 c =
      .error ⟨.number, c.position.past (sign c.rest)⟩
        ⟨unsigned c.rest, c.position.past (sign c.rest)⟩) ∨
    (digitRun c.rest ≠ [] ∧ numeral 0 (digitRun c.rest) ≤ maxNumber ∧ number64 c =
      .ok (signedValue c.rest)
        ⟨behindRun c.rest, c.position.past (sign c.rest ++ digitRun c.rest)⟩) ∨
    (maxNumber < numeral 0 (digitRun c.rest) ∧ ∃ fits left,
      LongestFitting (digitRun c.rest) fits ∧ digitRun c.rest = fits ++ left ∧ number64 c =
        .error ⟨.overflow, c.position.past (sign c.rest ++ fits)⟩
          ⟨left ++ behindRun c.rest, c.position.past (sign c.rest ++ fits)⟩) := by
  rw [number64_eq_natural, Position.past_append]
  have hdigits : ∀ b ∈ digitRun c.rest, isDigit b = true := fun b => isDigit_of_mem_digitRun
  have hhead := behindRun_head c.rest
  rw [← digitRun_append_behindRun]
  by_cases hnil : digitRun c.rest = []
  · rw [hnil, List.nil_append, natural_of_no_digit hhead]
    exact .inl ⟨rfl, rfl⟩
  · rcases Nat.lt_or_ge maxNumber (numeral 0 (digitRun c.rest)) with hover | hle
    · obtain ⟨fits, left, hlongest, hsplit, hread⟩ :=
        natural_overflow hdigits hover (behindRun c.rest) (c.position.past (sign c.rest))
      refine .inr (.inr ⟨hover, fits, left, hlongest, hsplit, ?_⟩)
      rw [hread, Position.past_append]
    · rw [natural_append hnil hdigits hle hhead]
      exact .inr (.inl ⟨hnil, hle, rfl⟩)

theorem number64_eq_ok_iff_run {c d : Cursor} {v : Int} :
    number64 c = .ok v d ↔
      digitRun c.rest ≠ [] ∧ numeral 0 (digitRun c.rest) ≤ 9223372036854775807 ∧
      v = signedValue c.rest ∧
      d = ⟨behindRun c.rest, c.position.past (sign c.rest ++ digitRun c.rest)⟩ := by
  rcases number64_cases c with ⟨hnil, hread⟩ | ⟨hne, hle, hread⟩ | ⟨hover, _, _, _, _, hread⟩
  · rw [hread]
    exact ⟨fun h => (by cases h), fun h => absurd hnil h.1⟩
  · rw [hread, EStateM.Result.ok.injEq]
    exact ⟨fun h => ⟨hne, hle, h.1.symm, h.2.symm⟩, fun h => ⟨h.2.2.1.symm, h.2.2.2.symm⟩⟩
  · rw [hread]
    exact ⟨fun h => (by cases h), fun h => absurd hover (Nat.not_lt.2 h.2.1)⟩

theorem number64_eq_error {c d : Cursor} {e : TextError} (h : number64 c = .error e d) :
    (digitRun c.rest = [] ∧ e = d.error .number ∧
      d = ⟨unsigned c.rest, c.position.past (sign c.rest)⟩) ∨
    (9223372036854775807 < numeral 0 (digitRun c.rest) ∧ e = d.error .overflow ∧
      ∃ fits left, LongestFitting (digitRun c.rest) fits ∧ digitRun c.rest = fits ++ left ∧
        d = ⟨left ++ behindRun c.rest, c.position.past (sign c.rest ++ fits)⟩) := by
  rcases number64_cases c with
    ⟨hnil, hread⟩ | ⟨_, _, hread⟩ | ⟨hover, fits, left, hfits, hsplit, hread⟩
  all_goals
    rw [hread] at h
    cases h
  · exact .inl ⟨hnil, rfl, rfl⟩
  · exact .inr ⟨hover, rfl, fits, left, hfits, hsplit, rfl⟩

theorem number32_eq_ok_iff_number64 {c d : Cursor} {v : Int} :
    number32 c = .ok v d ↔ number64 c = .ok v d ∧ v.natAbs ≤ 2147483647 := by
  rw [number32]
  cases number64 c with
  | error e d => exact ⟨fun h => (by cases h), fun h => h.1⟩
  | ok w d =>
    dsimp only
    split
    · rename_i hw
      refine ⟨fun h => ?_, fun h => h.1⟩
      cases h
      exact ⟨rfl, hw⟩
    · rename_i hw
      refine ⟨fun h => (by cases h), fun h => ?_⟩
      obtain ⟨h, hle⟩ := h
      cases h
      exact absurd hle hw

theorem number32_eq_error {c d : Cursor} {e : TextError} (h : number32 c = .error e d) :
    number64 c = .error e d ∨
      ∃ v, number64 c = .ok v d ∧ 2147483647 < v.natAbs ∧ e = d.error .overflow := by
  rw [number32] at h
  cases hread : number64 c with
  | error e' d' =>
    rw [hread] at h
    cases h
    exact .inl rfl
  | ok v d' =>
    simp only [hread] at h
    split at h
    · cases h
    · rename_i hv
      cases h
      exact .inr ⟨v, rfl, Nat.lt_of_not_le hv, rfl⟩

/-- Two readers that stop at the same place for the same reason, and read related values. -/
inductive SameOutcome {α β : Type} (R : α → β → Prop) :
    EStateM.Result TextError Cursor α → EStateM.Result TextError Cursor β → Prop where
  | ok {a : α} {b : β} {c : Cursor} (h : R a b) : SameOutcome R (.ok a c) (.ok b c)
  | error {e : TextError} {c : Cursor} : SameOutcome R (.error e c) (.error e c)

namespace Word

/-- The word, if it is the number and not only equal to it modulo 2 to the 64. -/
def exactly (w : Int64) (x : Int) : Option Int64 := if w.toInt = x then some w else none

def digit (b : UInt8) : Option Int64 := exactly (Int64.ofNat (b - 48).toNat) (b.toNat - 48)

/-- The word with one more digit. -/
def shift (v d : Int64) : Option Int64 := do
  let w ← exactly (v * 10) (v.toInt * 10)
  exactly (w + d) (w.toInt + d.toInt)

/-- `digitsFrom` on words. It is `none` where a digit is no word; a number that is too large is an
    error as any other. -/
def digitsFrom (v : Int64) (p : Position) :
    List UInt8 → Option (EStateM.Result TextError Cursor Int64)
  | [] => some (.ok v ⟨[], p⟩)
  | b :: rest =>
    if isDigit b then
      match digit b with
      | none => none
      | some d =>
        match shift v d with
        | some w => digitsFrom w (p.after b) rest
        | none => some (.error ⟨.overflow, p⟩ ⟨b :: rest, p⟩)
    else some (.ok v ⟨b :: rest, p⟩)

def natural (c : Cursor) : Option (EStateM.Result TextError Cursor Int64) :=
  if c.peek?.any isDigit then digitsFrom 0 c.position c.rest
  else some (.error (c.error .number) c)

/-- `number64` on words. It is `none` also where the negative of a word is no word. -/
def number64 (c : Cursor) : Option (EStateM.Result TextError Cursor Int64) :=
  if c.peek? = some dash then
    match natural c.next with
    | some (.ok v c) => (exactly (-v) (-v.toInt)).map (.ok · c)
    | r => r
  else natural c

/-- `number32` on words. It is `none` also where the absolute value of a word is no word. -/
def number32 (c : Cursor) : Option (EStateM.Result TextError Cursor Int32) :=
  match number64 c with
  | none => none
  | some (.error e d) => some (.error e d)
  | some (.ok v d) =>
    (exactly v.abs v.toInt.natAbs).map fun a =>
      if 2147483647 < a then .error (d.error .overflow) d else .ok v.toInt32 d

theorem exactly_eq_some {w : Int64} {x : Int} (h : w.toInt = x) : exactly w x = some w := if_pos h

theorem exactly_eq_none {w : Int64} {x : Int} (h : 9223372036854775807 < x) :
    exactly w x = none := by
  have hw := w.toInt_lt
  refine if_neg fun he => ?_
  omega

theorem toInt_mul_ten {v : Int64} (h₀ : 0 ≤ v.toInt) (h : v.toInt * 10 ≤ 9223372036854775807) :
    (v * 10).toInt = v.toInt * 10 := by
  rw [Int64.toInt_mul]
  exact Int.bmod_eq_of_le (by change _ ≤ v.toInt * 10; omega) (by change v.toInt * 10 < _; omega)

theorem toInt_add {v d : Int64} (h₀ : 0 ≤ v.toInt + d.toInt)
    (h : v.toInt + d.toInt ≤ 9223372036854775807) : (v + d).toInt = v.toInt + d.toInt := by
  rw [Int64.toInt_add]
  exact Int.bmod_eq_of_le (by omega) (by omega)

theorem toInt_neg {v : Int64} (h : 0 ≤ v.toInt) : (-v).toInt = -v.toInt := by
  have hv := v.toInt_lt
  rw [Int64.toInt_neg]
  exact Int.bmod_eq_of_le (by omega) (by omega)

theorem toInt_abs {v : Int64} (h : v.toInt ≠ -9223372036854775808) :
    v.abs.toInt = v.toInt.natAbs := by
  refine BitVec.toInt_abs_eq_natAbs_of_ne_intMin fun hmin => h ?_
  rw [← Int64.toInt_toBitVec, hmin]
  rfl

theorem toInt_toInt32 {v : Int64} (h : v.toInt.natAbs ≤ 2147483647) :
    v.toInt32.toInt = v.toInt := by
  rw [Int64.toInt_toInt32]
  exact Int.bmod_eq_of_le (by omega) (by omega)

theorem digit_of_isDigit {b : UInt8} (h : isDigit b = true) :
    ∃ d, digit b = some d ∧ d.toInt = (b.toNat - 48 : Nat) := by
  have hb : 48 ≤ b := by
    simp only [isDigit, Bool.and_eq_true, decide_eq_true_eq] at h
    exact h.1
  have hle : 48 ≤ b.toNat := UInt8.le_iff_toNat_le.1 hb
  have hlt := b.toNat_lt
  have hsub : (b - 48).toNat = b.toNat - 48 := UInt8.toNat_sub_of_le b 48 hb
  have hword : (Int64.ofNat (b - 48).toNat).toInt = (b.toNat - 48 : Nat) := by
    rw [hsub]
    exact Int64.toInt_ofNat_of_lt (by omega)
  refine ⟨_, exactly_eq_some ?_, hword⟩
  rw [hword]
  omega

/-- One more digit is a word exactly if the number still fits. -/
theorem shift_cases {v d : Int64} {n k : Nat} (hv : v.toInt = n) (hd : d.toInt = k) :
    (10 * n + k ≤ maxNumber ∧ ∃ w, shift v d = some w ∧ w.toInt = (10 * n + k : Nat)) ∨
      (maxNumber < 10 * n + k ∧ shift v d = none) := by
  have hmax : maxNumber = 9223372036854775807 := rfl
  rw [hmax, shift]
  by_cases hten : v.toInt * 10 ≤ 9223372036854775807
  · have hmul := toInt_mul_ten (by omega) hten
    rw [exactly_eq_some hmul]
    change (_ ∧ ∃ w, exactly (v * 10 + d) _ = some w ∧ _) ∨ (_ ∧ exactly (v * 10 + d) _ = none)
    rcases Nat.lt_or_ge 9223372036854775807 (10 * n + k) with hover | hle
    · exact .inr ⟨hover, exactly_eq_none (by omega)⟩
    · have hadd := toInt_add (v := v * 10) (d := d) (by omega) (by omega)
      exact .inl ⟨hle, _, exactly_eq_some hadd, by omega⟩
  · rw [exactly_eq_none (by omega)]
    exact .inr ⟨by omega, rfl⟩

theorem exists_digitsFrom {v : Int64} {n : Nat} (hv : v.toInt = n) (p : Position)
    (bytes : List UInt8) :
    ∃ r, digitsFrom v p bytes = some r ∧
      SameOutcome (fun (w : Int64) (m : Nat) => w.toInt = m) r (Text.digitsFrom n p bytes) := by
  induction bytes generalizing v n p with
  | nil => exact ⟨_, rfl, .ok hv⟩
  | cons b rest ih =>
    rw [digitsFrom, Text.digitsFrom]
    by_cases hb : isDigit b = true
    · obtain ⟨d, hdigit, hd⟩ := digit_of_isDigit hb
      simp only [if_pos hb, hdigit]
      rcases shift_cases hv hd with ⟨hle, w, hshift, hw⟩ | ⟨hover, hshift⟩
      · rw [hshift, if_pos hle]
        exact ih hw (p.after b)
      · rw [hshift, if_neg (Nat.not_le.2 hover)]
        exact ⟨_, rfl, .error⟩
    · rw [if_neg hb, if_neg hb]
      exact ⟨_, rfl, .ok hv⟩

theorem exists_natural (c : Cursor) :
    ∃ r, natural c = some r ∧ SameOutcome (fun (w : Int64) (m : Nat) => w.toInt = m) r (Text.natural c) := by
  rw [natural, Text.natural]
  split
  · exact exists_digitsFrom rfl c.position c.rest
  · exact ⟨_, rfl, .error⟩

/-- The words are never negative before the sign is looked at, so each has a negative. -/
theorem exists_number64 (c : Cursor) :
    ∃ r, number64 c = some r ∧ SameOutcome (fun w v => w.toInt = v) r (Text.number64 c) := by
  rw [number64, Text.number64]
  split
  · obtain ⟨r, hr, hsame⟩ := exists_natural c.next
    rw [hr]
    generalize Text.natural c.next = s at hsame ⊢
    cases hsame with
    | @ok v n d hv =>
      have hneg := toInt_neg (v := v) (by omega)
      simp only [exactly_eq_some hneg, Option.map_some]
      exact ⟨_, rfl, .ok (by rw [hneg, hv])⟩
    | error => exact ⟨_, rfl, .error⟩
  · obtain ⟨r, hr, hsame⟩ := exists_natural c
    rw [hr]
    generalize Text.natural c = s at hsame ⊢
    cases hsame with
    | ok hv => exact ⟨_, rfl, .ok hv⟩
    | error => exact ⟨_, rfl, .error⟩

/-- The words are never so small that one has no absolute value. -/
theorem exists_number32 (c : Cursor) :
    ∃ r, number32 c = some r ∧ SameOutcome (fun w v => w.toInt = v) r (Text.number32 c) := by
  obtain ⟨r, hr, hsame⟩ := exists_number64 c
  rw [number32, Text.number32, hr]
  generalize hread : Text.number64 c = s at hsame ⊢
  cases hsame with
  | error => exact ⟨_, rfl, .error⟩
  | @ok w v d hw =>
    obtain ⟨_, _, _, hle, _⟩ := number64_eq_ok_iff.1 hread
    have hmax : v.natAbs ≤ 9223372036854775807 := hle
    have habs := toInt_abs (v := w) (by omega)
    have hlt : 2147483647 < w.abs ↔ 2147483647 < v.natAbs := by
      rw [Int64.lt_iff_toInt_lt, habs, hw]
      exact Int.ofNat_lt
    simp only [exactly_eq_some habs, Option.map_some]
    by_cases hv : v.natAbs ≤ 2147483647
    · rw [if_neg fun h => Nat.not_lt.2 hv (hlt.1 h), if_pos hv]
      refine ⟨_, rfl, .ok ?_⟩
      rw [toInt_toInt32 (hw ▸ hv), hw]
    · rw [if_pos (hlt.2 (Nat.lt_of_not_le hv)), if_neg hv]
      exact ⟨_, rfl, .error⟩

end Word

/-- For every input, the readers of numbers succeed exactly on a sign and a whole run of digits of a
    value in range. Else they stop behind the sign if no digit follows, behind the longest part of the
    run that fits, or, for a value that only the wider reader accepts, behind the run. Words of 64 bits
    give the same outcome, and no step on them leaves their range. -/
theorem number_readers_outcome (c : Cursor) :
    c.rest = sign c.rest ++ (digitRun c.rest ++ behindRun c.rest) ∧
    (∀ v d, number64 c = .ok v d ↔
      digitRun c.rest ≠ [] ∧ numeral 0 (digitRun c.rest) ≤ 9223372036854775807 ∧
      v = signedValue c.rest ∧
      d = ⟨behindRun c.rest, c.position.past (sign c.rest ++ digitRun c.rest)⟩) ∧
    (∀ e d, number64 c = .error e d →
      (digitRun c.rest = [] ∧ e = d.error .number ∧
        d = ⟨unsigned c.rest, c.position.past (sign c.rest)⟩) ∨
      (9223372036854775807 < numeral 0 (digitRun c.rest) ∧ e = d.error .overflow ∧
        ∃ fits left, LongestFitting (digitRun c.rest) fits ∧ digitRun c.rest = fits ++ left ∧
          d = ⟨left ++ behindRun c.rest, c.position.past (sign c.rest ++ fits)⟩)) ∧
    (∀ v d, number32 c = .ok v d ↔ number64 c = .ok v d ∧ v.natAbs ≤ 2147483647) ∧
    (∀ e d, number32 c = .error e d → number64 c = .error e d ∨
      ∃ v, number64 c = .ok v d ∧ 2147483647 < v.natAbs ∧ e = d.error .overflow) ∧
    (∃ r, Word.number64 c = some r ∧ SameOutcome (fun w v => w.toInt = v) r (number64 c)) ∧
    (∃ r, Word.number32 c = some r ∧ SameOutcome (fun w v => w.toInt = v) r (number32 c)) := by
  refine ⟨?_, fun v d => number64_eq_ok_iff_run, fun e d => number64_eq_error,
    fun v d => number32_eq_ok_iff_number64, fun e d => number32_eq_error,
    Word.exists_number64 c, Word.exists_number32 c⟩
  rw [digitRun_append_behindRun, sign_append_unsigned]

/-- The smallest word of 64 bits, -9223372036854775808, which is no number of the reader. -/
def smallestWord : List UInt8 :=
  [45, 57, 50, 50, 51, 51, 55, 50, 48, 51, 54, 56, 53, 52, 55, 55, 53, 56, 48, 56]

/-- Its last digit is left over. -/
theorem number_readers_outcome_smallestWord :
    number64 (.ofBytes smallestWord) = .error ⟨.overflow, ⟨1, 20⟩⟩ ⟨[56], ⟨1, 20⟩⟩ ∧
      LongestFitting (smallestWord.drop 1) ((smallestWord.drop 1).take 18) := by
  have hread : number64 (.ofBytes smallestWord) = .error ⟨.overflow, ⟨1, 20⟩⟩ ⟨[56], ⟨1, 20⟩⟩ :=
    rfl
  have hrun : digitRun (Cursor.ofBytes smallestWord).rest = smallestWord.drop 1 := by decide
  have hbehind : behindRun (Cursor.ofBytes smallestWord).rest = [] := by decide
  obtain ⟨_, _, herror, _⟩ := number_readers_outcome (.ofBytes smallestWord)
  rcases herror _ _ hread with ⟨hnil, _⟩ | ⟨_, _, fits, left, hfits, hsplit, hd⟩
  · exact absurd hnil (by decide)
  · obtain rfl : [56] = left := by
      rw [hbehind, List.append_nil] at hd
      exact congrArg Cursor.rest hd
    rw [hrun] at hfits hsplit
    obtain rfl : (smallestWord.drop 1).take 18 = fits :=
      List.append_cancel_right (show (smallestWord.drop 1).take 18 ++ [56] = fits ++ [56] from hsplit)
    exact ⟨hread, hfits⟩

end ClausalProof.Text
