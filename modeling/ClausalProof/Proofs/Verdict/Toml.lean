import ClausalProof.Proofs.Toml.Document
import ClausalProof.Proofs.Verdict.Literals

set_option autoImplicit false

/-!
Witness files are read back, whichever library writes and reads them. A verdict can be shown, since
its tables are its last fields and its integers are small enough; and what is present of it is read
field by field.
-/
namespace ClausalProof

namespace Data

/-- A value as it is read back, if it is present. -/
def given (d : Data) : Option Data := if d.isNull then none else some d.present

theorem isNull_present (d : Data) : d.present.isNull = d.isNull := by
  cases d <;> rfl

theorem isNull_of_mem_presentFields {fields : List (String × Data)} :
    ∀ f ∈ presentFields fields, f.2.isNull = false := by
  induction fields with
  | nil => simp [presentFields]
  | cons f fields ih =>
    rw [presentFields]
    split
    · exact ih
    · rename_i hnull
      exact List.forall_mem_cons.2 ⟨(isNull_present f.2).trans (Bool.eq_false_iff.2 hnull), ih⟩

theorem lookup_presentFields {fields : List (String × Data)} (hkeys : (fields.map (·.1)).Nodup)
    {f : String × Data} (hf : f ∈ fields) :
    (presentFields fields).lookup f.1 = f.2.given := by
  induction fields with
  | nil => cases hf
  | cons g fields ih =>
    obtain ⟨hg, hkeys⟩ := List.nodup_cons.1 hkeys
    replace hg : g.1 ∉ fields.map (·.1) := hg
    rw [presentFields]
    rcases List.mem_cons.1 hf with rfl | hf
    · rw [given]
      split
      · exact Toml.lookup_eq_none fun hmem => hg ((Toml.keys_presentFields_sublist fields).subset hmem)
      · exact List.lookup_cons_self
    · have hne : (f.1 == g.1) = false :=
        beq_false_of_ne fun heq => hg (heq ▸ List.mem_map_of_mem hf)
      split
      · exact ih hkeys hf
      · rw [List.lookup_cons, hne]
        exact ih hkeys hf

namespace Reader

variable {r : Reader}

/-- The fields of a record that is read, from the fields of the one that was written. -/
theorem Documented.fields_present (h : r.Documented) (fields : List (String × Data))
    (hkeys : (fields.map (·.1)).Nodup) :
    r.fields (fields.map (·.1)) (.table false (presentFields fields)) =
      some (fields.map (·.2.given)) := by
  rw [h.fields _ _ (hkeys.sublist (Toml.keys_presentFields_sublist fields)) isNull_of_mem_presentFields,
    List.map_map]
  exact congrArg some (List.map_congr_left fun f hf => lookup_presentFields hkeys hf)

theorem Documented.literal? (h : r.Documented) {l : Literal} (hl : l.isValid = true) :
    r.literal? l.toData = some l := by
  have hmin : Int32.minValue.toInt = -2147483648 := rfl
  have hmax : Int32.maxValue.toInt = 2147483647 := rfl
  have hvar := Literal.natAbs_toInt l
  obtain ⟨hpos, hle⟩ := Literal.isValid_iff.1 hl
  have hle : l.var ≤ 2147483647 := hle
  have hint : r.int l.toData = some l.toInt := h.int _ (by omega) (by omega)
  have hother : ¬ (l.toInt = 0 ∨ l.toInt = Int32.minValue.toInt) := by omega
  rw [Reader.literal?, hint, Option.bind_eq_bind, Option.bind_some, if_neg hother, Literal.ofInt_toInt hl]

theorem Documented.list? {α : Type} {read : Data → Option α} {toData : α → Data} {xs : List α}
    (h : r.Documented) (hxs : ∀ x ∈ xs, read (toData x) = some x) :
    r.list? read (.list (xs.map toData)) = some xs := by
  rw [Reader.list?, h.items, Option.bind_eq_bind, Option.bind_some, List.mapM_map]
  exact (mapM_eq_some (f := id) hxs).trans (by rw [List.map_id])

theorem Documented.clause? (h : r.Documented) {c : Clause} (hc : ∀ l ∈ c, l.isValid = true) :
    r.clause? (Clause.toData c) = some c :=
  h.list? fun l hl => h.literal? (hc l hl)

theorem Documented.clauses? (h : r.Documented) {f : Formula}
    (hf : ∀ l ∈ f.flatten, l.isValid = true) : r.list? r.clause? (Formula.toData f) = some f :=
  h.list? fun _ hc => h.clause? fun l hl => hf l (List.mem_flatten_of_mem hc hl)

theorem optional_given {α : Type} {read : Data → Option α} {toData : α → Data} {o : Option α}
    (h : ∀ a, o = some a → read (toData a).present = some a ∧ (toData a).isNull = false) :
    optional read (given (ofOption toData o)) = some o := by
  cases o with
  | none => rfl
  | some a =>
    obtain ⟨hread, hnull⟩ := h a rfl
    rw [ofOption, given, hnull, if_neg Bool.false_ne_true, optional, hread]
    rfl

end Reader

end Data

namespace Toml

theorem arePlain_map {α : Type} {toData : α → Data} {xs : List α}
    (h : ∀ x ∈ xs, isPlain (toData x) = true) : arePlain (xs.map toData) = true := by
  induction xs with
  | nil => rfl
  | cons x xs ih =>
    obtain ⟨hx, hxs⟩ := List.forall_mem_cons.1 h
    rw [List.map_cons, arePlain, hx, ih hxs]
    rfl

theorem isInRange_of_natAbs_le {v : Int} (h : v.natAbs ≤ 9223372036854775807) : isInRange v = true := by
  have hmin : Int64.minValue.toInt = -9223372036854775808 := rfl
  have hmax : Int64.maxValue.toInt = 9223372036854775807 := rfl
  refine decide_eq_true (?_ : Int64.minValue.toInt ≤ v ∧ v ≤ Int64.maxValue.toInt)
  omega

theorem isPlain_clause {c : Clause} (h : ∀ l ∈ c, l.isValid = true) :
    isPlain (Clause.toData c) = true := by
  have hints : (c.map Literal.toData).all Data.isInt = true := by
    simp [Literal.toData, Data.isInt]
  have hplain : ∀ l ∈ c, isPlain l.toData = true := by
    intro l hl
    have hle : l.var ≤ 2147483647 := (Literal.isValid_iff.1 (h l hl)).2
    refine isInRange_of_natAbs_le ?_
    rw [Literal.natAbs_toInt]
    omega
  rw [Clause.toData, isPlain, arePlain_map hplain, areAlike, hints]
  rfl

theorem isPlain_clauses {f : Formula} (h : ∀ l ∈ f.flatten, l.isValid = true) :
    isPlain (Formula.toData f) = true := by
  have hlists : (f.map Clause.toData).all Data.isList = true := by
    simp [Clause.toData, Data.isList]
  have hplain : ∀ c ∈ f, isPlain (Clause.toData c) = true := fun c hc =>
    isPlain_clause fun l hl => h l (List.mem_flatten_of_mem hc hl)
  rw [Formula.toData, isPlain, arePlain_map hplain, areAlike, hlists, Bool.or_true]
  rfl

theorem isShown_ofOption {α : Type} {toData : α → Data} {o : Option α}
    (h : ∀ a, o = some a → isShown (toData a) = true) : isShown (.ofOption toData o) = true := by
  cases o with
  | none => rfl
  | some a => exact h a rfl

end Toml

namespace RupFailure

variable {f : RupFailure} (h : ∀ l ∈ f.literals, l.isValid = true)
include h

theorem rup?_toData {r : Data.Reader} (hr : r.Documented) : r.rup? f.toData.present = some f := by
  obtain ⟨hclause, hchain⟩ := List.forall_mem_append.1 h
  have hfields : r.fields ["clause", "chain"] f.toData.present =
      some [some (Clause.toData f.clause), some (Clause.toData f.chain)] :=
    hr.fields_present [("clause", Clause.toData f.clause), ("chain", Clause.toData f.chain)] (by simp)
  rw [Data.Reader.rup?, hfields]
  simp [hr.clause? hclause, hr.clause? hchain]

theorem isShown_toData : Toml.isShown f.toData = true := by
  obtain ⟨hclause, hchain⟩ := List.forall_mem_append.1 h
  have hclause : Toml.isShown (Clause.toData f.clause) = true := Toml.isPlain_clause hclause
  have hchain : Toml.isShown (Clause.toData f.chain) = true := Toml.isPlain_clause hchain
  simp only [toData, Toml.isShown, Toml.areShown, hclause, hchain]
  rfl

end RupFailure

namespace RatFailure

variable {f : RatFailure} (h : ∀ l ∈ f.literals, l.isValid = true)
include h

theorem rat?_toData {r : Data.Reader} (hr : r.Documented) : r.rat? f.toData.present = some f := by
  obtain ⟨hclauses, hrup⟩ := List.forall_mem_append.1 h
  obtain ⟨hclause, hpivot⟩ := List.forall_mem_append.1 hclauses
  have hfields : r.fields ["clause", "pivot_clause", "rup_info"] f.toData.present =
      some [some (Clause.toData f.clause), some (Clause.toData f.pivotClause),
        some f.rup.toData.present] :=
    hr.fields_present [("clause", Clause.toData f.clause),
      ("pivot_clause", Clause.toData f.pivotClause), ("rup_info", f.rup.toData)] (by simp)
  rw [Data.Reader.rat?, hfields]
  simp [hr.clause? hclause, hr.clause? hpivot, RupFailure.rup?_toData hrup hr]

theorem isShown_toData : Toml.isShown f.toData = true := by
  obtain ⟨hclauses, hrup⟩ := List.forall_mem_append.1 h
  obtain ⟨hclause, hpivot⟩ := List.forall_mem_append.1 hclauses
  have hclause : Toml.isShown (Clause.toData f.clause) = true := Toml.isPlain_clause hclause
  have hpivot : Toml.isShown (Clause.toData f.pivotClause) = true := Toml.isPlain_clause hpivot
  simp only [toData, Toml.isShown, Toml.areShown, hclause, hpivot, RupFailure.isShown_toData hrup]
  rfl

end RatFailure

namespace Verdict

open Data Data.Reader

def entries (v : Verdict) : Toml.Entries :=
  [("outcome", .text v.outcome.name), ("proof_step", .ofOption (fun n : Nat => .int n) v.step),
    ("steps", .ofOption Formula.toData v.accepted), ("rup_info", .ofOption RupFailure.toData v.rup),
    ("rat_info", .ofOption RatFailure.toData v.rat)]

theorem toData_eq (v : Verdict) : v.toData = .table false v.entries := rfl

/-- The plain fields come before the tables. -/
theorem isOrdered_entries (v : Verdict) : Toml.isOrdered v.entries = true := by
  rcases v with ⟨o, _ | n, _ | f, _ | rup, _ | rat⟩ <;> rfl

section

variable {v : Verdict} (h : ∀ l ∈ v.literals, l.isValid = true)
  (hstep : ∀ n, v.step = some n → n ≤ 9223372036854775807)
include h hstep

theorem verdict?_toData {r : Data.Reader} (hr : r.Documented) :
    r.verdict? v.toData.present = some v := by
  obtain ⟨hfirst, hrat⟩ := List.forall_mem_append.1 h
  obtain ⟨haccepted, hrup⟩ := List.forall_mem_append.1 hfirst
  have hfields : r.fields ["outcome", "proof_step", "steps", "rup_info", "rat_info"] v.toData.present =
      some [some (.text v.outcome.name), given (.ofOption (fun n : Nat => .int n) v.step),
        given (.ofOption Formula.toData v.accepted), given (.ofOption RupFailure.toData v.rup),
        given (.ofOption RatFailure.toData v.rat)] :=
    hr.fields_present v.entries (by simp [entries])
  have houtcome : r.outcome? (.text v.outcome.name) = some v.outcome := by
    rw [Data.Reader.outcome?, hr.name]
    exact Outcome.ofName?_name v.outcome
  have hcount : optional r.count (given (.ofOption (fun n : Nat => .int n) v.step)) = some v.step :=
    optional_given fun n hn => ⟨hr.count n (Int.ofNat_le.2 (hstep n hn)), rfl⟩
  have hsteps : optional (r.list? r.clause?) (given (.ofOption Formula.toData v.accepted)) =
      some v.accepted :=
    optional_given fun f hf => by
      rw [hf] at haccepted
      exact ⟨hr.clauses? haccepted, rfl⟩
  have hrup : optional r.rup? (given (.ofOption RupFailure.toData v.rup)) = some v.rup :=
    optional_given fun f hf => by
      rw [hf] at hrup
      exact ⟨RupFailure.rup?_toData hrup hr, rfl⟩
  have hrat : optional r.rat? (given (.ofOption RatFailure.toData v.rat)) = some v.rat :=
    optional_given fun f hf => by
      rw [hf] at hrat
      exact ⟨RatFailure.rat?_toData hrat hr, rfl⟩
  rw [Data.Reader.verdict?, hfields]
  simp [houtcome, hcount, hsteps, hrup, hrat]

theorem isShown_toData : Toml.isShown v.toData = true := by
  obtain ⟨hfirst, hrat⟩ := List.forall_mem_append.1 h
  obtain ⟨haccepted, hrup⟩ := List.forall_mem_append.1 hfirst
  have houtcome : Toml.isShown (.text v.outcome.name) = true := by
    cases v.outcome <;> rfl
  have hcount : Toml.isShown (.ofOption (fun n : Nat => .int n) v.step) = true :=
    Toml.isShown_ofOption fun n hn => Toml.isInRange_of_natAbs_le (hstep n hn)
  have hsteps : Toml.isShown (.ofOption Formula.toData v.accepted) = true :=
    Toml.isShown_ofOption fun f hf => by
      rw [hf] at haccepted
      exact Toml.isPlain_clauses haccepted
  have hrup : Toml.isShown (.ofOption RupFailure.toData v.rup) = true :=
    Toml.isShown_ofOption fun f hf => by
      rw [hf] at hrup
      exact RupFailure.isShown_toData hrup
  have hrat : Toml.isShown (.ofOption RatFailure.toData v.rat) = true :=
    Toml.isShown_ofOption fun f hf => by
      rw [hf] at hrat
      exact RatFailure.isShown_toData hrat
  have hentries : Toml.areShown v.entries = true := by
    simp only [entries, Toml.areShown, houtcome, hcount, hsteps, hrup, hrat]
    rfl
  rw [toData_eq, Toml.isShown, hentries, isOrdered_entries]
  rfl

theorem exists_witnessText {lib : Toml.Library} (hlib : lib.Documented) :
    ∃ text, v.witnessText lib = some text :=
  ⟨_, congrArg (Option.map _) (hlib.write v.entries (isShown_toData h hstep))⟩

end

/-- A witness file is read back as the verdict that was written to it, whichever of its fields are
    present. -/
theorem ofToml?_witnessText (lib : Toml.Library) (hlib : lib.Documented) (v : Verdict)
    (h : ∀ l ∈ v.literals, l.isValid = true)
    (hstep : ∀ n, v.step = some n → n ≤ 9223372036854775807) :
    ∃ text, v.witnessText lib = some text ∧ ofToml? lib text = some v := by
  let comment := " Failure witness produced by drup"
  have hcomment : ∀ text ∈ [comment], text.toList.all Toml.isCommentChar = true := by decide
  obtain ⟨text, hwrite, hread⟩ := hlib.read_write (isShown_toData h hstep) hcomment
  have hrow : Toml.rowsText ([comment].map .comment) = "# Failure witness produced by drup\n" := by
    decide +kernel
  rw [hrow] at hread
  refine ⟨"# Failure witness produced by drup\n" ++ text, congrArg (Option.map _) hwrite, ?_⟩
  rw [ofToml?, hread]
  exact verdict?_toData h hstep hlib.reader

/-- With the built-in library, a verdict with empty lists and with numbers at both ends of their range. -/
theorem ofToml?_witnessText_limits :
    let l : Literal := ⟨2147483647, true⟩
    let v : Verdict := ⟨.invalid, some 9223372036854775807, some [[], [l, -l]], some ⟨[], []⟩,
      some ⟨[l], [-l, ⟨1, false⟩], ⟨[], [l]⟩⟩⟩
    let text := "# Failure witness produced by drup\noutcome = \"INVALID\"\n" ++
      "proof_step = 9223372036854775807\nsteps = [[], [-2147483647, 2147483647]]\n\n" ++
      "[rup_info]\nclause = []\nchain = []\n\n" ++
      "[rat_info]\nclause = [-2147483647]\npivot_clause = [2147483647, 1]\n\n" ++
      "[rat_info.rup_info]\nclause = []\nchain = [-2147483647]\n"
    Toml.builtIn.Documented ∧ v.literals = [l, -l, l, -l, ⟨1, false⟩, l] ∧
      v.witnessText Toml.builtIn = some text ∧ ofToml? Toml.builtIn text = some v := by
  intro l v text
  obtain ⟨written, hwritten, hread⟩ :=
    ofToml?_witnessText Toml.builtIn Toml.builtIn_documented v (by decide) (by decide)
  have htext : v.witnessText Toml.builtIn = some text := by decide +kernel
  obtain rfl := Option.some.inj (hwritten.symm.trans htext)
  exact ⟨Toml.builtIn_documented, by decide, htext, hread⟩

end Verdict
end ClausalProof
