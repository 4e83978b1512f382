import ClausalProof.Proofs.Clause

set_option autoImplicit false

/-!
The enumeration of literals. By increasing code the two literals of a variable are neighbours, the
positive one first, so the codes from 2 on write 1, -1, 2, -2 and so on. The code that ends the
enumeration is a word of 32 bits: it is exact for every variable below the last one, and for the last
one it is 0, which leaves no codes at all.
-/
namespace ClausalProof.Literal

/-- The numbers 1, -1, 2, -2, up to `n` and `-n`. -/
def alternating : Nat → List Int
  | 0 => []
  | n + 1 => alternating n ++ [((n + 1 : Nat) : Int), -((n + 1 : Nat) : Int)]

/-- The valid literals of the variables up to `v`, each of them once and nothing else, in the order of
    `alternating`. -/
structure Enumerates (v : Nat) (ls : List Literal) : Prop where
  count : ∀ l : Literal, ls.count l = if l.isValid = true ∧ l.var ≤ v then 1 else 0
  order : ls.map toInt = alternating v

/-- The literals of the first `n` variables by increasing code, whatever `n` is. -/
def byCode (n : Nat) : List Literal := (List.range' 2 (2 * n)).map ofCode

/-- One more variable adds its two literals at the end. -/
theorem byCode_succ (n : Nat) : byCode (n + 1) = byCode n ++ [⟨n + 1, false⟩, ⟨n + 1, true⟩] := by
  have hpositive : ofCode (2 + 2 * n) = ⟨n + 1, false⟩ := by
    rw [Nat.add_comm]
    exact ofCode_code ⟨n + 1, false⟩
  have hnegative : ofCode (2 + (2 * n + 1)) = ⟨n + 1, true⟩ := by
    rw [Nat.add_comm]
    exact ofCode_code ⟨n + 1, true⟩
  rw [byCode, Nat.mul_succ, List.range'_1_concat, List.range'_1_concat, List.map_append,
    List.map_append, List.append_assoc]
  simp only [List.map_cons, List.map_nil, hpositive, hnegative]
  rfl

theorem map_toInt_byCode (n : Nat) : (byCode n).map toInt = alternating n := by
  induction n with
  | zero => rfl
  | succ n ih =>
    rw [byCode_succ, List.map_append, ih]
    rfl

theorem mem_byCode {n : Nat} {l : Literal} : l ∈ byCode n ↔ 1 ≤ l.var ∧ l.var ≤ n := by
  have hcode : l ∈ byCode n ↔ 2 ≤ l.code ∧ l.code < 2 + 2 * n := by
    rw [byCode, List.mem_map]
    constructor
    · rintro ⟨i, hi, rfl⟩
      rw [code_ofCode]
      exact List.mem_range'_1.1 hi
    · exact fun h => ⟨l.code, List.mem_range'_1.2 h, ofCode_code l⟩
  have hsign := Bool.toNat_le l.negative
  rw [hcode, code]
  omega

theorem nodup_byCode (n : Nat) : (byCode n).Nodup := by
  refine List.Nodup.map ?_ List.nodup_range'
  intro i j hij
  rw [← code_ofCode i, hij, code_ofCode]

theorem enumerates_byCode {n : Nat} (hn : n ≤ maxVariable) : Enumerates n (byCode n) where
  count := by
    intro l
    have hmem : l ∈ byCode n ↔ l.isValid = true ∧ l.var ≤ n := by
      rw [mem_byCode, isValid_iff]
      omega
    split
    · rename_i hl
      exact List.count_eq_one_of_mem (nodup_byCode n) (hmem.2 hl)
    · rename_i hl
      exact List.count_eq_zero.2 fun h => hl (hmem.1 h)
  order := map_toInt_byCode n

theorem length_alternating (n : Nat) : (alternating n).length = 2 * n := by
  rw [← map_toInt_byCode, List.length_map, byCode, List.length_map, List.length_range']

/-- The end of the codes counts the variables modulo `maxVariable + 1`. -/
theorem upTo_eq_byCode (v : Nat) : upTo v = byCode ((v + 1) % (maxVariable + 1) - 1) := by
  have hsize : literalSlots v % UInt32.size - 2 = 2 * ((v + 1) % (maxVariable + 1) - 1) := by
    simp only [literalSlots, UInt32.size, maxVariable]
    omega
  rw [upTo, hsize, byCode]

theorem upTo_of_lt {v : Nat} (hv : v < maxVariable) : upTo v = byCode v := by
  rw [upTo_eq_byCode, Nat.mod_eq_of_lt (Nat.add_lt_add_right hv 1), Nat.add_sub_cancel]

theorem upTo_maxVariable : upTo maxVariable = [] := by
  rw [upTo_eq_byCode, Nat.mod_self]
  rfl

theorem lt_of_enumerates_upTo {v : Nat} (h : Enumerates v (upTo v)) : v < maxVariable := by
  have hlength := congrArg List.length h.order
  rw [upTo_eq_byCode, map_toInt_byCode, length_alternating, length_alternating] at hlength
  -- from the last variable on the codes have started over, and there are too few of them
  simp only [maxVariable] at hlength ⊢
  omega

namespace Word

/-- Sizes of tables are words of 64 bits. -/
def literalSlots (v : UInt32) : UInt64 := 2 * (v.toUInt64 + 1)

def ofCode (w : UInt32) : Literal := ⟨(w / 2).toNat, w &&& 1 != 0⟩

theorem toNat_succ {w last : UInt32} (h : w < last) : (w + 1).toNat = w.toNat + 1 := by
  have hlt := UInt32.lt_iff_toNat_lt.1 h
  have hlast := last.toNat_lt
  rw [UInt32.toNat_add, UInt32.toNat_one]
  exact Nat.mod_eq_of_lt (by omega)

/-- The words from `first` on that are below `last`. -/
def codes (first last : UInt32) : List UInt32 :=
  if first < last then first :: codes (first + 1) last else []
termination_by last.toNat - first.toNat
decreasing_by
  rename_i h
  have hlt := UInt32.lt_iff_toNat_lt.1 h
  rw [toNat_succ h]
  omega

/-- The size is cut to 32 bits before it ends the codes. -/
def upTo (v : UInt32) : List Literal := (codes 2 (literalSlots v).toUInt32).map ofCode

theorem map_toNat_codes (first last : UInt32) :
    (codes first last).map UInt32.toNat = List.range' first.toNat (last.toNat - first.toNat) := by
  fun_induction codes first last with
  | case1 first h ih =>
    have hlt := UInt32.lt_iff_toNat_lt.1 h
    have hcount : last.toNat - first.toNat = last.toNat - (first.toNat + 1) + 1 := by omega
    rw [List.map_cons, ih, toNat_succ h, hcount, List.range'_succ]
  | case2 first h =>
    have hle := Nat.le_of_not_lt fun hlt => h (UInt32.lt_iff_toNat_lt.2 hlt)
    rw [Nat.sub_eq_zero_of_le hle]
    rfl

theorem toNat_literalSlots (v : UInt32) : (literalSlots v).toNat = Literal.literalSlots v.toNat := by
  have hv := v.toNat_lt
  simp only [literalSlots, Literal.literalSlots, UInt64.toNat_mul, UInt64.toNat_add,
    UInt32.toNat_toUInt64, UInt64.reduceToNat]
  -- 33 bits are enough for the size, so nothing is lost before it is cut
  omega

theorem ofCode_eq (w : UInt32) : ofCode w = Literal.ofCode w.toNat := by
  have hbit : (w &&& 1).toNat = w.toNat % 2 := by
    rw [UInt32.toNat_and, UInt32.toNat_one, Nat.and_one_is_mod]
  have hsign : (w &&& 1 != 0) = (w.toNat % 2 == 1) := by
    rw [Bool.eq_iff_iff, bne_iff_ne, ne_eq, ← UInt32.toNat_inj, hbit, UInt32.toNat_zero, beq_iff_eq]
    omega
  rw [ofCode, Literal.ofCode, hsign, UInt32.toNat_div]
  rfl

theorem upTo_eq (v : UInt32) : upTo v = Literal.upTo v.toNat := by
  have hend : (literalSlots v).toUInt32.toNat = Literal.literalSlots v.toNat % UInt32.size := by
    rw [UInt64.toNat_toUInt32, toNat_literalSlots]
  have hcodes := map_toNat_codes 2 (literalSlots v).toUInt32
  rw [hend] at hcodes
  rw [upTo, Literal.upTo, funext ofCode_eq, ← Function.comp_def, ← List.map_map, hcodes]
  rfl

end Word

/-- The enumeration up to a variable is right for every variable but the last: each valid literal of the
    variables so far once, in order. For the last variable it is empty. Words of 32 bits for variables
    and codes, and of 64 bits for sizes, give the same literals. -/
theorem upTo_enumerates_iff (v : Nat) :
    (Enumerates v (upTo v) ↔ v < maxVariable) ∧ (v = maxVariable → upTo v = []) ∧
      ∀ w : UInt32, w.toNat = v → Word.upTo w = upTo v := by
  refine ⟨⟨lt_of_enumerates_upTo, fun hv => ?_⟩, ?_, ?_⟩
  · rw [upTo_of_lt hv]
    exact enumerates_byCode (Nat.le_of_lt hv)
  · rintro rfl
    exact upTo_maxVariable
  · rintro w rfl
    exact Word.upTo_eq w

/-- The last variable but one still has both its literals, and the words say the same. -/
theorem upTo_enumerates_iff_last_but_one :
    Enumerates 2147483646 (Word.upTo 2147483646) ∧
      (Word.upTo 2147483646).count ⟨2147483646, true⟩ = 1 ∧ Word.upTo 2147483647 = [] := by
  obtain ⟨hiff, _, hword⟩ := upTo_enumerates_iff 2147483646
  obtain ⟨_, hnil, hwordLast⟩ := upTo_enumerates_iff 2147483647
  have henumerates := hiff.2 (by decide)
  rw [← hword 2147483646 (by decide)] at henumerates
  refine ⟨henumerates, ?_, ?_⟩
  · rw [henumerates.count, if_pos (by decide)]
  · rw [hwordLast 2147483647 (by decide), hnil rfl]

/-- Up to the last variable no literal is listed, not even one of variable 1. -/
theorem not_enumerates_upTo_maxVariable :
    isValid ⟨1, false⟩ = true ∧ (⟨1, false⟩ : Literal) ∉ upTo maxVariable ∧
      ¬ Enumerates maxVariable (upTo maxVariable) := by
  refine ⟨by decide, ?_, fun h => Nat.lt_irrefl _ (lt_of_enumerates_upTo h)⟩
  rw [upTo_maxVariable]
  exact List.not_mem_nil

end ClausalProof.Literal
