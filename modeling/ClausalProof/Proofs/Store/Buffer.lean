import ClausalProof.Proofs.Clause
import ClausalProof.Store.Buffer

set_option autoImplicit false

/-!
What the cells of a buffer say. A buffer that holds some clauses has their cells one after the other,
and its offsets are the places where they start; then every clause can be read back, marks are changed
one clause at a time, and a new clause goes behind the others.
-/
namespace ClausalProof

namespace Marks

theorem toBitVec_one_shiftLeft {i : UInt32} (hi : i < 32) :
    ((1 : UInt32) <<< i).toBitVec = BitVec.twoPow 32 i.toNat := by
  have hmod : i.toNat % 32 = i.toNat := Nat.mod_eq_of_lt hi
  rw [UInt32.toBitVec_shiftLeft, BitVec.twoPow_eq, BitVec.shiftLeft_eq', BitVec.toNat_umod]
  exact congrArg (1#32 <<< ·) hmod

theorem has_eq (m : Marks) {i : UInt32} (hi : i < 32) :
    m.has i = m.bits.toBitVec.getLsbD i.toNat := by
  have hne : BitVec.twoPow 32 i.toNat ≠ 0#32 := by
    intro hzero
    have hset : i.toNat < 32 := hi
    have hbit := congrArg (·.getLsbD i.toNat) hzero
    simp [hset] at hbit
  rw [has, Bool.eq_iff_iff, bne_iff_ne, ne_eq, ← UInt32.toBitVec_inj, UInt32.toBitVec_and,
    toBitVec_one_shiftLeft hi, BitVec.and_twoPow]
  cases m.bits.toBitVec.getLsbD i.toNat <;> simp [hne]

/-- Setting a bit changes no other bit. -/
theorem has_put (m : Marks) {i j : UInt32} (hi : i < 32) (hj : j < 32) (b : Bool) :
    (m.put i b).has j = if i = j then b else m.has j := by
  have hi' : i.toNat < 32 := hi
  have hj' : j.toNat < 32 := hj
  rw [has_eq _ hj, has_eq _ hj, put]
  cases b
  · simp [toBitVec_one_shiftLeft hi, hj', UInt32.toNat_inj, eq_comm, Bool.and_comm]
  · simp [toBitVec_one_shiftLeft hi, hi', UInt32.toNat_inj, Bool.or_comm]

theorem ofCell_cell (m : Marks) : ofCell m.cell = m := by
  rw [ofCell, cell, Literal.code_ofCode, UInt32.ofNat_toNat]

/-- The marks of a clause, with all other bits 0. -/
def of (derived repeated deleted : Bool) : Marks :=
  ((none.setDerived derived).setRepeated repeated).setDeleted deleted

section
variable (derived repeated deleted b : Bool)

@[simp] theorem isDerived_of : (of derived repeated deleted).isDerived = derived := by
  simp [of, isDerived, setDerived, setRepeated, setDeleted, has_put]

@[simp] theorem isRepeated_of : (of derived repeated deleted).isRepeated = repeated := by
  simp [of, isRepeated, setDerived, setRepeated, setDeleted, has_put]

@[simp] theorem isDeleted_of : (of derived repeated deleted).isDeleted = deleted := by
  simp [of, isDeleted, setDeleted, has_put]

theorem setDerived_none : none.setDerived derived = of derived false false := by
  cases derived <;> decide

theorem setRepeated_of : (of derived repeated deleted).setRepeated b = of derived b deleted := by
  cases derived <;> cases repeated <;> cases deleted <;> cases b <;> decide

theorem setDeleted_of : (of derived repeated deleted).setDeleted b = of derived repeated b := by
  cases derived <;> cases repeated <;> cases deleted <;> cases b <;> decide

end
end Marks

namespace Buffer

/-- A clause with its marks. -/
structure Entry where
  literals : Clause
  derived : Bool
  repeated : Bool
  deleted : Bool
deriving DecidableEq, Repr

def Entry.marks (e : Entry) : Marks := .of e.derived e.repeated e.deleted

def Entry.delete (e : Entry) : Entry := { e with deleted := true }

/-- A clause as it is stored when it is added. -/
def Entry.new (c : Clause) (derived : Bool) : Entry :=
  ⟨c.eraseDups, derived, c.eraseDups.length != c.length, false⟩

def Entry.cells (id : Nat) (e : Entry) : List Literal :=
  [.ofCode id, e.marks.cell] ++ e.literals ++ [terminator]

/-- The cells of some clauses, the first of which has identifier `k`. -/
def layout (k : Nat) : List Entry → List Literal
  | [] => []
  | e :: es => e.cells k ++ layout (k + 1) es

/-- The number of cells before the clause with identifier `id`. -/
def startOf (es : List Entry) (id : Nat) : Nat := (layout 0 (es.take id)).length

structure Holds (b : Buffer) (es : List Entry) : Prop where
  data : b.data.toList = layout 0 es
  offset : b.offset.toList = (List.range (es.length + 1)).map (startOf es)

theorem Entry.length_cells (id : Nat) (e : Entry) : (e.cells id).length = e.literals.length + 3 := by
  simp [Entry.cells]

theorem layout_append (k : Nat) (es fs : List Entry) :
    layout k (es ++ fs) = layout k es ++ layout (k + es.length) fs := by
  induction es generalizing k with
  | nil => rfl
  | cons e es ih =>
    rw [List.cons_append, layout, layout, ih, List.append_assoc, List.length_cons, Nat.add_assoc,
      Nat.add_comm 1]

theorem layout_concat (es : List Entry) (e : Entry) :
    layout 0 (es ++ [e]) = layout 0 es ++ e.cells es.length := by
  rw [layout_append, Nat.zero_add, layout, layout, List.append_nil]

section
variable {b : Buffer} {es : List Entry} {e : Entry} {id : Nat}

/-- The cells of a clause between those of the clauses before it and behind it. -/
theorem layout_split (he : es[id]? = some e) :
    layout 0 es = layout 0 (es.take id) ++ (e.cells id ++ layout (id + 1) (es.drop (id + 1))) := by
  obtain ⟨hlt, hget⟩ := List.getElem?_eq_some_iff.1 he
  have hlen : (es.take id).length = id := List.length_take_of_le (Nat.le_of_lt hlt)
  have hsplit : es = es.take id ++ e :: es.drop (id + 1) := by
    rw [← hget, ← List.drop_eq_getElem_cons hlt, List.take_append_drop]
  conv_lhs => rw [hsplit, layout_append, hlen, Nat.zero_add, layout]

theorem startOf_succ (he : es[id]? = some e) :
    startOf es (id + 1) = startOf es id + (e.literals.length + 3) := by
  obtain ⟨hlt, hget⟩ := List.getElem?_eq_some_iff.1 he
  have hlen : (es.take id).length = id := List.length_take_of_le (Nat.le_of_lt hlt)
  rw [startOf, List.take_succ_eq_append_getElem hlt, hget, layout_concat, List.length_append, hlen,
    Entry.length_cells]
  rfl

theorem startOf_length (es : List Entry) : startOf es es.length = (layout 0 es).length := by
  rw [startOf, List.take_length]

/-- Places depend on the clauses before them only. -/
theorem startOf_congr {fs : List Entry} (h : es.map (·.literals.length) = fs.map (·.literals.length))
    (id : Nat) : startOf es id = startOf fs id := by
  have hlength : ∀ gs : List Entry, ∀ k,
      (layout k gs).length = (gs.map (·.literals.length)).foldr (fun n m => n + 3 + m) 0 := by
    intro gs
    induction gs with
    | nil => exact fun _ => rfl
    | cons g gs ih =>
      intro k
      rw [layout, List.length_append, Entry.length_cells, ih, List.map_cons, List.foldr_cons]
  rw [startOf, startOf, hlength, hlength, List.map_take, List.map_take, h]

theorem Holds.size (h : b.Holds es) : b.size = es.length := by
  have hlen := congrArg List.length h.offset
  rw [Array.length_toList, List.length_map, List.length_range] at hlen
  rw [Buffer.size, hlen, Nat.add_sub_cancel]

theorem Holds.offset_get (h : b.Holds es) (hid : id ≤ es.length) :
    Bounded.get b.offset id = .ok (startOf es id) := by
  rw [Bounded.get_eq_ok, ← Array.getElem?_toList, h.offset, List.getElem?_map,
    List.getElem?_range (Nat.lt_succ_of_le hid)]
  rfl

theorem holds_empty : empty.Holds [] := ⟨rfl, rfl⟩

theorem Holds.span (h : b.Holds es) (he : es[id]? = some e) :
    b.span id = .ok (startOf es id + 2, startOf es id + 2 + e.literals.length) := by
  have hlt : id < es.length := (List.getElem?_eq_some_iff.1 he).1
  have hstop : Bounded.get b.offset (id + 1) = .ok (startOf es (id + 1)) := h.offset_get hlt
  rw [startOf_succ he] at hstop
  simp only [Buffer.span, h.offset_get (Nat.le_of_lt hlt), hstop, Checked.bind_eq_ok]
  refine ⟨_, rfl, _, rfl, (), ?_, ?_⟩
  · rw [require_eq_ok, decide_eq_true_eq, paddingEnd]
    omega
  · rw [Checked.pure_eq_ok, paddingStart, paddingEnd, Prod.mk.injEq]
    omega

theorem Holds.clause (h : b.Holds es) (he : es[id]? = some e) : b.clause id = .ok e.literals := by
  have hdata := h.data.trans (layout_split he)
  have hlen := congrArg List.length hdata
  rw [Array.length_toList, List.length_append, List.length_append, Entry.length_cells] at hlen
  have hfits : startOf es id + 2 + e.literals.length ≤ b.data.size := by
    rw [hlen, startOf]
    omega
  have hcells : (b.data.extract (startOf es id + 2) (startOf es id + 2 + e.literals.length)).toList =
      e.literals := by
    rw [Array.toList_extract, List.extract_eq_take_drop, Nat.add_sub_cancel_left, hdata, startOf,
      List.drop_length_add_append]
    simp [Entry.cells]
  simp only [Buffer.clause, h.span he, Bounded.slice, Checked.bind_eq_ok]
  exact ⟨_, rfl, _, if_pos ⟨Nat.le_add_right _ _, hfits⟩, congrArg Except.ok hcells⟩

theorem Holds.marks_cell (h : b.Holds es) (he : es[id]? = some e) :
    b.data[startOf es id + marksOffset]? = some e.marks.cell := by
  rw [← Array.getElem?_toList, h.data.trans (layout_split he), startOf,
    List.getElem?_append_right (Nat.le_add_right _ _), Nat.add_sub_cancel_left]
  rfl

theorem Holds.marks (h : b.Holds es) (he : es[id]? = some e) : b.marks id = .ok e.marks := by
  have hlt : id < es.length := (List.getElem?_eq_some_iff.1 he).1
  simp only [Buffer.marks, h.offset_get (Nat.le_of_lt hlt), Checked.bind_eq_ok]
  refine ⟨_, rfl, _, Bounded.get_eq_ok.2 (h.marks_cell he), ?_⟩
  rw [Marks.ofCell_cell]
  rfl

theorem Holds.isLive (h : b.Holds es) (he : es[id]? = some e) : b.isLive id = .ok (!e.deleted) := by
  rw [Buffer.isLive, h.marks he, ← Marks.isDeleted_of e.derived e.repeated e.deleted]
  rfl

theorem setMarks_eq_ok {m : Marks} {d : Buffer} :
    b.setMarks id m = .ok d ↔ ∃ start, b.offset[id]? = some start ∧ start + marksOffset < b.data.size ∧
      d = { b with data := b.data.setIfInBounds (start + marksOffset) m.cell } := by
  simp only [Buffer.setMarks, Checked.bind_eq_ok, Checked.pure_eq_ok, Bounded.get_eq_ok,
    Bounded.set_eq_ok]
  constructor
  · rintro ⟨start, hstart, data, ⟨hlt, rfl⟩, rfl⟩
    exact ⟨start, hstart, hlt, rfl⟩
  · rintro ⟨start, hstart, hlt, rfl⟩
    exact ⟨start, hstart, _, ⟨hlt, rfl⟩, rfl⟩

theorem Holds.setMarks {f : Entry} (h : b.Holds es) (he : es[id]? = some e)
    (hf : f.literals = e.literals) :
    ∃ d, b.setMarks id f.marks = .ok d ∧ d.Holds (es.set id f) := by
  obtain ⟨hlt, hget⟩ := List.getElem?_eq_some_iff.1 he
  have hstart : b.offset[id]? = some (startOf es id) :=
    Bounded.get_eq_ok.1 (h.offset_get (Nat.le_of_lt hlt))
  have hcell : startOf es id + marksOffset < b.data.size := (Array.getElem?_eq_some_iff.1 (h.marks_cell he)).1
  refine ⟨_, setMarks_eq_ok.2 ⟨_, hstart, hcell, rfl⟩, ?_, ?_⟩
  · have hset : (es.set id f)[id]? = some f := by simp [hlt]
    rw [Array.toList_setIfInBounds, h.data, layout_split he, layout_split hset,
      List.take_set_of_le (Nat.le_refl id), List.drop_set_of_lt (Nat.lt_succ_self id), startOf,
      List.set_append_right _ _ (Nat.le_add_right _ _), Nat.add_sub_cancel_left, Entry.cells,
      Entry.cells, hf]
    rfl
  · have hsame : (es.set id f).map (·.literals.length) = es.map (·.literals.length) := by
      have hlength : id < (es.map (·.literals.length)).length := by rwa [List.length_map]
      have hkept : f.literals.length = (es.map (·.literals.length))[id] := by
        rw [List.getElem_map, hget, hf]
      rw [List.map_set, hkept, List.set_getElem_self]
    rw [List.length_set, h.offset]
    exact List.map_congr_left fun i _ => (startOf_congr hsame i).symm

/-- The literals that are new go behind those that are there. -/
theorem pushNew_eq (before : List Literal) {seen : List Literal} {c : Clause}
    (derived repeated deleted : Bool)
    (hseen : seen.Nodup) (hc : ∀ l ∈ c, l.isZero = false) :
    pushNew before.length (before ++ seen).toArray (.of derived repeated deleted) c =
      .ok ((before ++ (seen ++ c).eraseDups).toArray,
        .of derived (repeated || (seen ++ c).eraseDups.length != (seen ++ c).length) deleted) := by
  induction c generalizing seen repeated with
  | nil => simp [pushNew, Clause.eraseDups_of_nodup hseen]
  | cons l c ih =>
    have hzero : l.isZero = false := hc l List.mem_cons_self
    have hrest : ∀ k ∈ c, k.isZero = false := fun k hk => hc k (List.mem_cons_of_mem _ hk)
    have hslice : Bounded.slice (before ++ seen).toArray before.length (before ++ seen).toArray.size =
        .ok seen.toArray := by
      simp [Bounded.slice]
    by_cases hl : l ∈ seen
    · have hshort : (seen ++ c).eraseDups.length < (seen ++ l :: c).length := by
        have hle := (Clause.eraseDups_sublist (seen ++ c)).length_le
        simp only [List.length_append, List.length_cons] at hle ⊢
        omega
      have hdropped : ((seen ++ c).eraseDups.length != (seen ++ l :: c).length) = true :=
        bne_iff_ne.2 (Nat.ne_of_lt hshort)
      simp only [pushNew, hzero, hslice, Bool.not_false, require, if_true, bind, Except.bind]
      rw [if_pos (by simpa using hl), Marks.setRepeated_of, ih _ hseen hrest, Bool.true_or,
        Clause.eraseDups_append_cons hl, hdropped, Bool.or_true]
    · have hnew : (seen ++ [l]).Nodup := List.nodup_append'.2 ⟨hseen, by simp, by simpa using hl⟩
      have hpush : (before ++ seen).toArray.push l = (before ++ (seen ++ [l])).toArray := by simp
      simp only [pushNew, hzero, hslice, Bool.not_false, require, if_true, bind, Except.bind]
      rw [if_neg (by simpa using hl), hpush, ih _ hnew hrest, List.append_assoc]
      rfl

theorem isZero_of_pushNew {start : Nat} {data : Array Literal} {m : Marks} {c : Clause}
    {r : Array Literal × Marks} (h : pushNew start data m c = .ok r) : ∀ l ∈ c, l.isZero = false := by
  induction c generalizing data m with
  | nil => exact fun l hl => absurd hl List.not_mem_nil
  | cons k c ih =>
    simp only [pushNew, Checked.bind_eq_ok, require_eq_ok, Bool.not_eq_true'] at h
    obtain ⟨_, hk, seen, _, h⟩ := h
    have hc : ∀ l ∈ c, l.isZero = false := by
      split at h
      · exact ih h
      · exact ih h
    exact List.forall_mem_cons.2 ⟨hk, hc⟩

theorem count_eq_ok {n : Nat} : b.count = .ok n ↔ b.size ≤ maxIdentifier ∧ n = b.size := by
  simp only [count, Checked.bind_eq_ok, Checked.pure_eq_ok, require_eq_ok, decide_eq_true_eq]
  constructor
  · rintro ⟨_, hle, hn⟩
    exact ⟨hle, hn.symm⟩
  · rintro ⟨hle, hn⟩
    exact ⟨(), hle, hn.symm⟩

theorem count_overflow (h : maxIdentifier < b.size) : b.count = .error .identifierRange := by
  have hfull : decide (b.size ≤ maxIdentifier) = false := decide_eq_false (Nat.not_le_of_lt h)
  rw [count, hfull]
  rfl

theorem add_eq_ok {c : Clause} {derived : Bool} {d : Buffer} (h : b.add c derived = .ok (id, d)) :
    (∀ l ∈ c, l.isZero = false) ∧ b.size ≤ maxIdentifier := by
  simp only [add, Checked.bind_eq_ok] at h
  obtain ⟨n, hcount, r, hpush, _⟩ := h
  exact ⟨isZero_of_pushNew hpush, (count_eq_ok.1 hcount).1⟩

theorem Holds.concat (h : b.Holds es) (e : Entry) :
    Holds ⟨(layout 0 (es ++ [e])).toArray, b.offset.push (layout 0 (es ++ [e])).length⟩ (es ++ [e]) := by
  refine ⟨rfl, ?_⟩
  have holder : (List.range (es.length + 1)).map (startOf es) =
      (List.range (es.length + 1)).map (startOf (es ++ [e])) := by
    refine List.map_congr_left fun i hi => ?_
    rw [startOf, startOf, List.take_append_of_le_length (Nat.le_of_lt_succ (List.mem_range.1 hi))]
  rw [Array.toList_push, h.offset, holder, List.length_append, List.length_singleton,
    List.range_succ (n := es.length + 1), List.map_append, List.map_singleton, ← startOf_length,
    List.length_append, List.length_singleton]

/-- A new clause comes last, and gets the number of the clauses before it. -/
theorem Holds.add {c : Clause} (h : b.Holds es) (derived : Bool) (hc : ∀ l ∈ c, l.isZero = false)
    (hsize : es.length ≤ maxIdentifier) :
    ∃ d, b.add c derived = .ok (es.length, d) ∧ d.Holds (es ++ [.new c derived]) := by
  have hcount : b.count = .ok es.length := count_eq_ok.2 ⟨h.size ▸ hsize, h.size.symm⟩
  -- the marks are written once before the literals are compared, and once more after that
  let first : Entry := ⟨c.eraseDups, derived, false, false⟩
  let before := b.data.toList ++ [.ofCode es.length, first.marks.cell]
  have hbefore : (b.data.push (.ofCode es.length)).push first.marks.cell = (before ++ []).toArray := by
    apply Array.toList_inj.1
    simp [before]
  have hpush : pushNew ((b.data.push (.ofCode es.length)).push first.marks.cell).size
      ((b.data.push (.ofCode es.length)).push first.marks.cell) first.marks c =
      .ok ((before ++ c.eraseDups).toArray, (Entry.new c derived).marks) := by
    have hnew := pushNew_eq before derived false false List.nodup_nil hc
    rw [List.append_nil, List.nil_append, Bool.false_or] at hnew
    rw [hbefore, List.append_nil, List.size_toArray]
    exact hnew
  have hdata : (before ++ c.eraseDups).toArray.push terminator = (layout 0 (es ++ [first])).toArray := by
    rw [layout_concat, ← h.data]
    apply Array.toList_inj.1
    simp [before, first, Entry.cells]
  have hlast : (es ++ [first])[es.length]? = some first := by simp
  obtain ⟨d, hset, hholds⟩ := (h.concat first).setMarks (f := .new c derived) hlast rfl
  refine ⟨d, ?_, by simpa using hholds⟩
  simp only [Buffer.add, hcount, Checked.bind_eq_ok, Marks.setDerived_none]
  refine ⟨_, rfl, _, hpush, d, ?_, rfl⟩
  rw [hdata, List.size_toArray, hset]

/-- The live clauses among some entries, the first of which has identifier `k`. -/
def listed (k : Nat) (es : List Entry) : List (Nat × Clause) :=
  (es.zipIdx k).filterMap fun (e, id) => if e.deleted then none else some (id, e.literals)

theorem listed_append (k : Nat) (es fs : List Entry) :
    listed k (es ++ fs) = listed k es ++ listed (k + es.length) fs := by
  rw [listed, listed, listed, List.zipIdx_append, List.filterMap_append]

theorem listed_cons (k : Nat) (e : Entry) (es : List Entry) :
    listed k (e :: es) =
      if e.deleted then listed (k + 1) es else (k, e.literals) :: listed (k + 1) es := by
  have happend : listed k (e :: es) = listed k [e] ++ listed (k + 1) es := listed_append k [e] es
  rw [happend]
  cases hd : e.deleted <;> simp [listed, hd]

theorem mem_listed {k : Nat} {c : Clause} :
    (id, c) ∈ listed k es ↔
      k ≤ id ∧ ∃ e, es[id - k]? = some e ∧ e.deleted = false ∧ e.literals = c := by
  simp only [listed, List.mem_filterMap, Prod.exists, List.mem_zipIdx_iff_le_and_getElem?_sub]
  constructor
  · rintro ⟨e, i, ⟨hk, he⟩, h⟩
    cases hd : e.deleted <;> simp only [hd, Bool.false_eq_true, if_false, if_true] at h
    · cases h
      exact ⟨hk, e, he, hd, rfl⟩
    · cases h
  · rintro ⟨hk, e, he, hd, rfl⟩
    exact ⟨e, id, ⟨hk, he⟩, by simp [hd]⟩

theorem pairwise_listed (k : Nat) (es : List Entry) :
    (listed k es).Pairwise fun x y => x.1 < y.1 := by
  induction es generalizing k with
  | nil => exact List.Pairwise.nil
  | cons e es ih =>
    rw [listed_cons]
    split
    · exact ih (k + 1)
    · exact List.pairwise_cons.2 ⟨fun y hy => (mem_listed.1 hy).1, ih (k + 1)⟩

theorem listed_set {f : Entry} (he : es[id]? = some e)
    (hd : e.deleted = false) (hf : f.deleted = true) :
    ∃ older newer, (∀ x ∈ older, x.1 < id) ∧ (∀ x ∈ newer, id < x.1) ∧
      listed 0 es = older ++ (id, e.literals) :: newer ∧ listed 0 (es.set id f) = older ++ newer := by
  obtain ⟨hlt, hget⟩ := List.getElem?_eq_some_iff.1 he
  have hlen : (es.take id).length = id := by
    rw [List.length_take]
    omega
  have hsplit : es = es.take id ++ e :: es.drop (id + 1) := by
    rw [← hget, ← List.drop_eq_getElem_cons hlt, List.take_append_drop]
  have hset : es.set id f = es.take id ++ f :: es.drop (id + 1) :=
    List.set_eq_take_cons_drop f hlt
  refine ⟨listed 0 (es.take id), listed (id + 1) (es.drop (id + 1)), ?_, ?_, ?_, ?_⟩
  · intro x hx
    obtain ⟨_, e', he', _⟩ := mem_listed.1 hx
    have := (List.getElem?_eq_some_iff.1 he').1
    omega
  · intro x hx
    exact (mem_listed.1 hx).1
  · conv_lhs => rw [hsplit]
    rw [listed_append, hlen]
    simp [listed, List.zipIdx_cons, hd]
  · rw [hset, listed_append, hlen]
    simp [listed, List.zipIdx_cons, hf]

theorem Holds.scanFrom {fs : List Entry} (h : b.Holds es) (hfs : es.drop id = fs) :
    b.scanFrom id fs.length = .ok (listed id fs) := by
  induction fs generalizing id with
  | nil => rfl
  | cons e fs ih =>
    have he : es[id]? = some e := by rw [← List.head?_drop, hfs, List.head?_cons]
    have hrest : es.drop (id + 1) = fs := by rw [← List.tail_drop, hfs, List.tail_cons]
    rw [List.length_cons, Buffer.scanFrom, h.isLive he, listed_cons]
    simp only [bind, Except.bind, h.clause he, ih hrest]
    cases e.deleted <;> rfl

theorem Holds.scan (h : b.Holds es) (hsize : es.length ≤ maxIdentifier) :
    b.scan = .ok (listed 0 es) := by
  rw [Buffer.scan, count_eq_ok.2 ⟨h.size ▸ hsize, h.size.symm⟩]
  exact h.scanFrom List.drop_zero

/-- What the cells say of a clause. A clause that cannot be read counts as deleted. -/
def entry (b : Buffer) (id : Nat) : Entry :=
  match b.clause id, b.marks id with
  | .ok c, .ok m => ⟨c, m.isDerived, m.isRepeated, m.isDeleted⟩
  | _, _ => ⟨[], false, false, true⟩

def entries (b : Buffer) : List Entry := (List.range b.size).map b.entry

theorem clause_of_entry (h : (b.entry id).deleted = false) : b.clause id = .ok (b.entry id).literals := by
  unfold entry at h ⊢
  split at h
  · rename_i c m hc hm
    exact hc
  · cases h

theorem Holds.entry (h : b.Holds es) (he : es[id]? = some e) : b.entry id = e := by
  rw [Buffer.entry, h.clause he, h.marks he]
  simp only [Entry.marks, Marks.isDerived_of, Marks.isRepeated_of, Marks.isDeleted_of]

theorem Holds.entries (h : b.Holds es) : b.entries = es := by
  rw [Buffer.entries, h.size]
  apply List.ext_getElem
  · rw [List.length_map, List.length_range]
  · intro i _ hi
    rw [List.getElem_map, List.getElem_range]
    exact h.entry (List.getElem?_eq_getElem hi)

end
end Buffer
end ClausalProof
