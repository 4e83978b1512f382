import ClausalProof.Text.Cursor
import ClausalProof.Text.Utf8

set_option autoImplicit false

/-!
Written numbers and what the readers make of them. A reader that consumes some bytes leaves the rest
at the position past them; a number ends where no digit follows.
-/
namespace ClausalProof

namespace Decimal

theorem digits_ne_nil (n : Nat) : digits n ≠ [] := by
  fun_cases digits n <;> simp

theorem exists_of_mem_digits {n : Nat} {c : Char} (h : c ∈ digits n) : ∃ d < 10, c = digit d := by
  induction n using digits.induct with
  | case1 n hn =>
    rw [digits, if_pos hn, List.mem_singleton] at h
    exact ⟨n, hn, h⟩
  | case2 n hn ih =>
    rw [digits, if_neg hn, List.mem_append, List.mem_singleton] at h
    rcases h with h | rfl
    · exact ih h
    · exact ⟨n % 10, Nat.mod_lt n (by decide), rfl⟩

/-- Only zero starts with a zero. -/
theorem exists_head?_digits {n : Nat} (h : n ≠ 0) :
    ∃ d < 10, d ≠ 0 ∧ (digits n).head? = some (digit d) := by
  induction n using digits.induct with
  | case1 n hn =>
    rw [digits, if_pos hn]
    exact ⟨n, hn, h, rfl⟩
  | case2 n hn ih =>
    obtain ⟨d, hd, hne, hhead⟩ := ih (by omega)
    rw [digits, if_neg hn, List.head?_append, hhead]
    exact ⟨d, hd, hne, rfl⟩

end Decimal

namespace Text

/-- Elements that satisfy a test, before one that does not. -/
theorem span_append {α : Type} {q : α → Bool} {xs rest : List α} (hxs : ∀ x ∈ xs, q x = true)
    (hrest : rest.head?.any q = false) :
    (xs ++ rest).takeWhile q = xs ∧ (xs ++ rest).dropWhile q = rest := by
  rw [List.takeWhile_append_of_pos hxs, List.dropWhile_append_of_pos hxs]
  cases rest with
  | nil => simp
  | cons x rest =>
    have hx : ¬ q x = true := by simpa using hrest
    rw [List.takeWhile_cons_of_neg hx, List.dropWhile_cons_of_neg hx, List.append_nil]
    exact ⟨rfl, rfl⟩

theorem encodeUtf8_append (s t : String) : encodeUtf8 (s ++ t) = encodeUtf8 s ++ encodeUtf8 t := by
  change (s ++ t).toByteArray.data.toList = _
  rw [String.toByteArray_append, ByteArray.data_append, Array.toList_append]
  rfl

theorem encodeUtf8_ofList (cs : List Char) :
    encodeUtf8 (String.ofList cs) = cs.flatMap String.utf8EncodeChar := by
  change (String.ofList cs).toByteArray.data.toList = _
  rw [String.toByteArray_ofList, List.utf8Encode, List.data_toByteArray]

/-- The position behind some bytes. -/
def Position.past (p : Position) (bytes : List UInt8) : Position := bytes.foldl Position.after p

theorem Position.past_append (p : Position) (bs cs : List UInt8) :
    p.past (bs ++ cs) = (p.past bs).past cs :=
  List.foldl_append

namespace Cursor

theorem skipWhile_append {q : UInt8 → Bool} {bs rest : List UInt8} (hbs : ∀ b ∈ bs, q b = true)
    (hrest : rest.head?.any q = false) (p : Position) :
    skipWhile q ⟨bs ++ rest, p⟩ = ⟨rest, p.past bs⟩ := by
  obtain ⟨htake, hdrop⟩ := span_append hbs hrest
  rw [skipWhile, htake, hdrop]
  rfl

theorem skipBlank_of_head {rest : List UInt8} (h : rest.head?.any isBlank = false) (p : Position) :
    skipBlank ⟨rest, p⟩ = ⟨rest, p⟩ := by
  have hnil : ∀ b ∈ ([] : List UInt8), isBlank b = true := by simp
  exact skipWhile_append hnil h p

theorem skipBlank_cons {b : UInt8} (hb : isBlank b = true) (rest : List UInt8) (p : Position) :
    skipBlank ⟨b :: rest, p⟩ = skipBlank ⟨rest, p.after b⟩ := by
  simp [skipBlank, skipWhile, hb]

theorem skipBlank_skipBlank (c : Cursor) : c.skipBlank.skipBlank = c.skipBlank := by
  refine skipBlank_of_head ?_ _
  rcases hrest : c.rest.dropWhile isBlank with _ | ⟨b, rest⟩
  · rfl
  · have hb := List.head?_dropWhile_not isBlank c.rest
    rw [hrest] at hb
    exact hb

end Cursor

theorem skipSome_of_head {rest : List UInt8} (h : rest.head?.any (fun b => !isBlank b) = false)
    (p : Position) : skipSome ⟨rest, p⟩ = .ok () (Cursor.skipBlank ⟨rest, p⟩) := by
  rw [skipSome, Cursor.peek?, h]
  rfl

theorem not_isDigit_of_isBlank {b : UInt8} (h : isBlank b = true) : isDigit b = false := by
  simp only [isBlank, Bool.or_eq_true, beq_iff_eq] at h
  rcases h with ((rfl | rfl) | rfl) | rfl <;> rfl

/-- Blanks, and the end of the text, end a number. -/
theorem head?_any_isDigit {rest : List UInt8}
    (h : rest.head?.any (fun b => !isBlank b) = false) : rest.head?.any isDigit = false := by
  cases rest with
  | nil => rfl
  | cons b rest => exact not_isDigit_of_isBlank (by simpa using h)

/-- The number with the digits of `v` before the given ones. -/
def numeral (v : Nat) (digits : List UInt8) : Nat :=
  digits.foldl (fun v b => 10 * v + (b.toNat - 48)) v

theorem numeral_append (v : Nat) (bs cs : List UInt8) :
    numeral v (bs ++ cs) = numeral (numeral v bs) cs :=
  List.foldl_append

theorem le_numeral (v : Nat) (bs : List UInt8) : v ≤ numeral v bs := by
  induction bs generalizing v with
  | nil => exact Nat.le_refl v
  | cons b bs ih =>
    have hrest := ih (10 * v + (b.toNat - 48))
    change v ≤ numeral (10 * v + (b.toNat - 48)) bs
    omega

theorem digitsFrom_append {v : Nat} {bs rest : List UInt8} (hbs : ∀ b ∈ bs, isDigit b = true)
    (hle : numeral v bs ≤ maxNumber) (p : Position) :
    digitsFrom v p (bs ++ rest) = digitsFrom (numeral v bs) (p.past bs) rest := by
  induction bs generalizing v p with
  | nil => rfl
  | cons b bs ih =>
    have hb := hbs b List.mem_cons_self
    have hfits : 10 * v + (b.toNat - 48) ≤ maxNumber := Nat.le_trans (le_numeral _ bs) hle
    rw [List.cons_append, digitsFrom, if_pos hb, if_pos hfits,
      ih (fun d hd => hbs d (List.mem_cons_of_mem _ hd)) hle]
    rfl

theorem natural_append {bs rest : List UInt8} (hne : bs ≠ []) (hbs : ∀ b ∈ bs, isDigit b = true)
    (hle : numeral 0 bs ≤ maxNumber) (hrest : rest.head?.any isDigit = false) (p : Position) :
    natural ⟨bs ++ rest, p⟩ = .ok (numeral 0 bs) ⟨rest, p.past bs⟩ := by
  have hhead : (bs ++ rest).head?.any isDigit = true := by
    cases bs with
    | nil => contradiction
    | cons b bs => exact hbs b List.mem_cons_self
  rw [natural, Cursor.peek?, if_pos hhead]
  change digitsFrom 0 p (bs ++ rest) = _
  rw [digitsFrom_append hbs hle]
  cases rest with
  | nil => rfl
  | cons b rest =>
    have hb : ¬ isDigit b = true := by simpa using hrest
    rw [digitsFrom, if_neg hb]

theorem encodeUtf8_digit {d : Nat} (h : d < 10) :
    String.utf8EncodeChar (Decimal.digit d) = [UInt8.ofNat (48 + d)] := by
  have hvalid : (48 + d).isValidChar := .inl (by omega)
  have hval : (Decimal.digit d).val.toNat = 48 + d := by
    rw [Decimal.digit, Char.ofNat, dif_pos hvalid]
    rfl
  have hascii : 48 + d ≤ 127 := by omega
  simp only [String.utf8EncodeChar, hval, if_pos hascii]

theorem encodeUtf8_ofNat (n : Nat) :
    encodeUtf8 (Decimal.ofNat n) =
      if n < 10 then [UInt8.ofNat (48 + n)]
      else encodeUtf8 (Decimal.ofNat (n / 10)) ++ [UInt8.ofNat (48 + n % 10)] := by
  simp only [Decimal.ofNat, encodeUtf8_ofList]
  rw [Decimal.digits]
  split
  · rename_i h
    simp [encodeUtf8_digit h]
  · simp [encodeUtf8_digit (Nat.mod_lt n (by decide))]

theorem toNat_digit {d : Nat} (h : d < 10) : (UInt8.ofNat (48 + d)).toNat = 48 + d := by
  rw [UInt8.toNat_ofNat', Nat.mod_eq_of_lt]
  omega

theorem isDigit_digit {d : Nat} (h : d < 10) : isDigit (UInt8.ofNat (48 + d)) = true := by
  have htoNat := toNat_digit h
  simp only [isDigit, Bool.and_eq_true, decide_eq_true_eq, UInt8.le_iff_toNat_le, htoNat]
  simp
  omega

theorem isDigit_of_mem_ofNat {n : Nat} {b : UInt8} (hb : b ∈ encodeUtf8 (Decimal.ofNat n)) :
    isDigit b = true := by
  rw [Decimal.ofNat, encodeUtf8_ofList] at hb
  obtain ⟨c, hc, hbc⟩ := List.mem_flatMap.1 hb
  obtain ⟨d, hd, rfl⟩ := Decimal.exists_of_mem_digits hc
  rw [encodeUtf8_digit hd, List.mem_singleton] at hbc
  exact hbc ▸ isDigit_digit hd

theorem numeral_ofNat (n : Nat) : numeral 0 (encodeUtf8 (Decimal.ofNat n)) = n := by
  induction n using Decimal.digits.induct with
  | case1 n h =>
    rw [encodeUtf8_ofNat, if_pos h]
    change 10 * 0 + ((UInt8.ofNat (48 + n)).toNat - 48) = n
    rw [toNat_digit h]
    omega
  | case2 n h ih =>
    rw [encodeUtf8_ofNat, if_neg h, numeral_append, ih]
    change 10 * (n / 10) + ((UInt8.ofNat (48 + n % 10)).toNat - 48) = n
    rw [toNat_digit (Nat.mod_lt n (by decide))]
    omega

/-- A written number starts with a digit. -/
theorem exists_encodeUtf8_ofNat (n : Nat) :
    ∃ b bs, encodeUtf8 (Decimal.ofNat n) = b :: bs ∧ isDigit b = true := by
  rcases hbytes : encodeUtf8 (Decimal.ofNat n) with _ | ⟨b, bs⟩
  · rw [encodeUtf8_ofNat] at hbytes
    split at hbytes <;> simp at hbytes
  · exact ⟨b, bs, rfl, isDigit_of_mem_ofNat (hbytes ▸ List.mem_cons_self)⟩

/-- A number as it may be written: an optional minus and one or more digits. -/
inductive Numeral : Int → List UInt8 → Prop where
  | plain {digits : List UInt8} (hne : digits ≠ []) (hdigits : ∀ b ∈ digits, isDigit b = true) :
      Numeral (numeral 0 digits) digits
  | minus {digits : List UInt8} (hne : digits ≠ []) (hdigits : ∀ b ∈ digits, isDigit b = true) :
      Numeral (-(numeral 0 digits : Int)) (dash :: digits)

namespace Numeral

variable {v : Int} {bs rest : List UInt8}

/-- A number starts with a digit or a minus. -/
theorem starts (h : Numeral v bs) : ∃ b cs, bs = b :: cs ∧ (isDigit b || b == dash) = true := by
  cases h with
  | plain hne hdigits =>
    obtain ⟨b, cs, rfl⟩ := List.exists_cons_of_ne_nil hne
    exact ⟨b, cs, rfl, by rw [hdigits b List.mem_cons_self]; rfl⟩
  | minus => exact ⟨dash, _, rfl, rfl⟩

theorem number64 (h : Numeral v bs) (hv : v.natAbs ≤ maxNumber) (hrest : rest.head?.any isDigit = false)
    (p : Position) : number64 ⟨bs ++ rest, p⟩ = .ok v ⟨rest, p.past bs⟩ := by
  cases h with
  | plain hne hdigits =>
    have hpeek : Cursor.peek? ⟨bs ++ rest, p⟩ ≠ some dash := by
      obtain ⟨b, cs, rfl⟩ := List.exists_cons_of_ne_nil hne
      intro hdash
      obtain rfl : b = dash := Option.some.inj hdash
      cases hdigits dash List.mem_cons_self
    rw [Text.number64, if_neg hpeek, natural_append hne hdigits hv hrest]
  | @minus digits hne hdigits =>
    have hpeek : Cursor.peek? ⟨dash :: (digits ++ rest), p⟩ = some dash := rfl
    have hnext : Cursor.next ⟨dash :: (digits ++ rest), p⟩ = ⟨digits ++ rest, p.after dash⟩ := rfl
    rw [Int.natAbs_neg] at hv
    rw [List.cons_append, Text.number64, if_pos hpeek, hnext, natural_append hne hdigits hv hrest]
    rfl

theorem number32 (h : Numeral v bs) (hv : v.natAbs ≤ 2147483647)
    (hrest : rest.head?.any isDigit = false) (p : Position) :
    number32 ⟨bs ++ rest, p⟩ = .ok v ⟨rest, p.past bs⟩ := by
  rw [Text.number32, h.number64 (Nat.le_trans hv (by decide)) hrest]
  exact if_pos hv

end Numeral

theorem Numeral.ofInt (v : Int) : Numeral v (encodeUtf8 (Decimal.ofInt v)) := by
  have hdigits : ∀ n, encodeUtf8 (Decimal.ofNat n) ≠ [] ∧
      ∀ b ∈ encodeUtf8 (Decimal.ofNat n), isDigit b = true := by
    intro n
    obtain ⟨b, bs, hbytes, _⟩ := exists_encodeUtf8_ofNat n
    exact ⟨by simp [hbytes], fun b => isDigit_of_mem_ofNat⟩
  cases v with
  | ofNat n =>
    have hplain := Numeral.plain (hdigits n).1 (hdigits n).2
    rwa [numeral_ofNat] at hplain
  | negSucc n =>
    have hbytes : encodeUtf8 (Decimal.ofInt (.negSucc n)) =
        dash :: encodeUtf8 (Decimal.ofNat (n + 1)) :=
      encodeUtf8_append "-" (Decimal.ofNat (n + 1))
    have hminus := Numeral.minus (hdigits (n + 1)).1 (hdigits (n + 1)).2
    rwa [numeral_ofNat, ← hbytes] at hminus

theorem digitsFrom_eq_ok {v w : Nat} {p : Position} {bytes : List UInt8} {d : Cursor}
    (h : digitsFrom v p bytes = .ok w d) :
    ∃ digits, bytes = digits ++ d.rest ∧ (∀ b ∈ digits, isDigit b = true) ∧ w = numeral v digits ∧
      d.position = p.past digits ∧ d.rest.head?.any isDigit = false ∧
      (v ≤ maxNumber → w ≤ maxNumber) := by
  induction bytes generalizing v p with
  | nil =>
    cases h
    exact ⟨[], rfl, by simp, rfl, rfl, rfl, id⟩
  | cons b bytes ih =>
    rw [digitsFrom] at h
    by_cases hb : isDigit b = true
    · rw [if_pos hb] at h
      by_cases hfits : 10 * v + (b.toNat - 48) ≤ maxNumber
      · rw [if_pos hfits] at h
        obtain ⟨digits, rfl, hdigits, hw, hposition, hend, hle⟩ := ih h
        exact ⟨b :: digits, rfl, List.forall_mem_cons.2 ⟨hb, hdigits⟩, hw, hposition, hend,
          fun _ => hle hfits⟩
      · rw [if_neg hfits] at h
        cases h
    · rw [if_neg hb] at h
      cases h
      exact ⟨[], rfl, by simp, rfl, rfl, by simpa using hb, id⟩

theorem natural_eq_ok {v : Nat} {c d : Cursor} (h : natural c = .ok v d) :
    ∃ digits, digits ≠ [] ∧ c.rest = digits ++ d.rest ∧ (∀ b ∈ digits, isDigit b = true) ∧
      v = numeral 0 digits ∧ d.position = c.position.past digits ∧ d.rest.head?.any isDigit = false ∧
      v ≤ maxNumber := by
  rw [natural] at h
  by_cases hpeek : c.peek?.any isDigit = true
  · rw [if_pos hpeek] at h
    obtain ⟨digits, hbytes, hdigits, hv, hposition, hend, hle⟩ := digitsFrom_eq_ok h
    refine ⟨digits, ?_, hbytes, hdigits, hv, hposition, hend, hle (Nat.zero_le _)⟩
    rintro rfl
    rw [Cursor.peek?, hbytes, List.nil_append, hend] at hpeek
    cases hpeek
  · rw [if_neg hpeek] at h
    cases h

/-- A number of 64 bits is read exactly from what writes it, up to its last digit. -/
theorem number64_eq_ok_iff {v : Int} {c d : Cursor} :
    number64 c = .ok v d ↔ ∃ bs, c.rest = bs ++ d.rest ∧ Numeral v bs ∧ v.natAbs ≤ maxNumber ∧
      d.position = c.position.past bs ∧ d.rest.head?.any isDigit = false := by
  constructor
  · intro h
    rw [number64] at h
    by_cases hpeek : c.peek? = some dash
    · rw [if_pos hpeek] at h
      cases hn : natural c.next with
      | error e d => simp [hn] at h
      | ok n d =>
        rw [hn] at h
        cases h
        obtain ⟨digits, hne, hbytes, hdigits, rfl, hposition, hend, hle⟩ := natural_eq_ok hn
        obtain ⟨rest, hrest⟩ := List.head?_eq_some_iff.1 hpeek
        have hnext : c.next = ⟨rest, c.position.after dash⟩ := by
          rw [Cursor.next, hrest]
        rw [hnext] at hbytes hposition
        refine ⟨dash :: digits, ?_, .minus hne hdigits, ?_, hposition, hend⟩
        · rw [hrest]
          exact congrArg (dash :: ·) hbytes
        · rwa [Int.natAbs_neg]
    · rw [if_neg hpeek] at h
      cases hn : natural c with
      | error e d => simp [hn] at h
      | ok n d =>
        rw [hn] at h
        cases h
        obtain ⟨digits, hne, hbytes, hdigits, rfl, hposition, hend, hle⟩ := natural_eq_ok hn
        exact ⟨digits, hbytes, .plain hne hdigits, hle, hposition, hend⟩
  · rintro ⟨bs, hbytes, hnumeral, hle, hposition, hend⟩
    have hread := hnumeral.number64 hle hend c.position
    rwa [← hbytes, ← hposition] at hread

theorem number32_eq_ok_iff {v : Int} {c d : Cursor} :
    number32 c = .ok v d ↔ ∃ bs, c.rest = bs ++ d.rest ∧ Numeral v bs ∧ v.natAbs ≤ 2147483647 ∧
      d.position = c.position.past bs ∧ d.rest.head?.any isDigit = false := by
  constructor
  · intro h
    rw [number32] at h
    cases hn : number64 c with
    | error e d => simp [hn] at h
    | ok w e =>
      rw [hn] at h
      by_cases hw : w.natAbs ≤ 2147483647
      · simp only [if_pos hw] at h
        cases h
        obtain ⟨bs, hbytes, hnumeral, _, hrest⟩ := number64_eq_ok_iff.1 hn
        exact ⟨bs, hbytes, hnumeral, hw, hrest⟩
      · simp only [if_neg hw] at h
        cases h
  · rintro ⟨bs, hbytes, hnumeral, hle, hposition, hend⟩
    have hread := hnumeral.number32 hle hend c.position
    rwa [← hbytes, ← hposition] at hread

end Text
end ClausalProof
