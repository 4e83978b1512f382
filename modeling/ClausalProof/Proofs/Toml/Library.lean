import ClausalProof.Verdict.Toml

set_option autoImplicit false

/-!
What is known of a library for TOML. It writes a table with the plain fields first and the tables
behind them, null left out; it reads a text row by row, where a field belongs to the table of the
last header before it and comments say nothing; and it reads records by the names of their fields
(`Library.Documented`). The text that is written for a table describes that table.
-/
namespace ClausalProof

theorem mapM_eq_some {α β : Type} {xs : List α} {read : α → Option β} {f : α → β}
    (h : ∀ x ∈ xs, read x = some (f x)) : xs.mapM read = some (xs.map f) := by
  induction xs with
  | nil => rfl
  | cons x xs ih =>
    obtain ⟨hx, hxs⟩ := List.forall_mem_cons.1 h
    rw [List.mapM_cons, hx, ih hxs]
    rfl

mutual
/-- Null is left out of tables. -/
def Data.present : Data → Data
  | .table inBraces fields => .table inBraces (presentFields fields)
  | d => d
def Data.presentFields : List (String × Data) → List (String × Data)
  | [] => []
  | (key, d) :: fields =>
    if d.isNull then presentFields fields else (key, d.present) :: presentFields fields
end

/-- Fields are found by name, and integers are read if they are in range. -/
structure Data.Reader.Documented (r : Data.Reader) : Prop where
  fields : ∀ (names : List String) (fields : List (String × Data)), (fields.map (·.1)).Nodup →
    (∀ f ∈ fields, f.2.isNull = false) →
    r.fields names (.table false fields) = some (names.map fun name => fields.lookup name)
  name : ∀ s, r.name (.text s) = some s
  items : ∀ ds, r.items (.list ds) = some ds
  int : ∀ v, Int32.minValue.toInt ≤ v → v ≤ Int32.maxValue.toInt → r.int (.int v) = some v
  count : ∀ n : Nat, n ≤ Int64.maxValue.toInt → r.count (.int n) = some n

namespace Toml

abbrev Entries := List (String × Data)

/-- Add an entry under a new key. -/
def addEntry (entry : String × Data) (entries : Entries) : Option Entries :=
  if entry.1 ∈ entries.map (·.1) then none else some (entries ++ [entry])

def changeInner (change : Entries → Option Entries) : Data → Option Data
  | .table false inner => (change inner).map (.table false ·)
  | _ => none

/-- Change the table under a key. -/
def changeTable (key : String) (change : Entries → Option Entries) : Entries → Option Entries
  | [] => none
  | (k, d) :: rest =>
    if k = key then (changeInner change d).map fun d => (k, d) :: rest
    else (changeTable key change rest).map ((k, d) :: ·)

/-- Change the table at the end of a path. -/
def changeAt (change : Entries → Option Entries) : List String → Entries → Option Entries
  | [] => change
  | key :: path => changeTable key (changeAt change path)

namespace Row

def isField : Row → Bool
  | .field _ _ => true
  | _ => false

/-- Rows that have only one meaning. -/
def isClear : Row → Bool
  | .comment text => text.toList.all isCommentChar
  | .blank => true
  | .field key d => isKey key && isPlain d
  | .header path key => (path ++ [key]).all isKey

/-- The table that is open, by its path, and the whole table, behind one more row. -/
def enter (s : List String × Entries) : Row → Option (List String × Entries)
  | .comment _ => some s
  | .blank => some s
  | .field key d => (changeAt (addEntry (key, d)) s.1 s.2).map (s.1, ·)
  | .header path key =>
    (changeAt (addEntry (key, .table false [])) path s.2).map (path ++ [key], ·)

end Row

/-- The table that rows describe. -/
def table? (rows : List Row) : Option Data :=
  (rows.foldlM Row.enter ([], [])).map fun s => .table false s.2

structure Library.Documented (lib : Library) : Prop where
  write : ∀ entries, isShown (.table false entries) = true →
    lib.write (.table false entries) = some (rowsText (layout [] entries))
  read : ∀ rows d, (∀ row ∈ rows, row.isClear = true) → rows.any Row.isField = true →
    table? rows = some d → lib.read (rowsText rows) = some d
  reader : lib.reader.Documented

section

variable {key : String} {path : List String} {entries : Entries} {f g : Entries → Option Entries}

theorem addEntry_eq_some {entry : String × Data} {entries' : Entries} :
    addEntry entry entries = some entries' ↔
      entry.1 ∉ entries.map (·.1) ∧ entries' = entries ++ [entry] := by
  rw [addEntry]
  split
  · rename_i h
    exact ⟨fun he => (nomatch he), fun he => absurd h he.1⟩
  · rename_i h
    exact ⟨fun he => ⟨h, (Option.some.inj he).symm⟩, fun he => congrArg some he.2.symm⟩

theorem changeInner_bind (d : Data) :
    (changeInner f d).bind (changeInner g) = changeInner (fun x => (f x).bind g) d := by
  rw [changeInner.eq_def f, changeInner.eq_def fun x => (f x).bind g]
  split
  · rename_i inner
    cases f inner <;> simp [changeInner]
  · rfl

theorem changeTable_bind :
    (changeTable key f entries).bind (changeTable key g) =
      changeTable key (fun x => (f x).bind g) entries := by
  fun_induction changeTable key f entries with
  | case1 => rfl
  | case2 d rest =>
    rw [changeTable, if_pos rfl, ← changeInner_bind]
    cases changeInner f d with
    | none => rfl
    | some d' => simp [changeTable]
  | case3 k d rest hk ih =>
    rw [changeTable, if_neg hk, ← ih]
    cases changeTable key f rest with
    | none => rfl
    | some rest' => simp [changeTable, hk]

theorem changeAt_bind :
    (changeAt f path entries).bind (changeAt g path) =
      changeAt (fun x => (f x).bind g) path entries := by
  induction path generalizing entries with
  | nil => rfl
  | cons key path ih =>
    rw [changeAt, changeAt, changeTable_bind, changeAt]
    exact congrArg (changeTable key · entries) (funext fun _ => ih)

theorem changeAt_append : changeAt f (path ++ [key]) = changeAt (changeTable key f) path := by
  induction path with
  | nil => rfl
  | cons k path ih => rw [List.cons_append, changeAt, ih, changeAt]

theorem changeInner_some {d d' : Data} (h : changeInner f d = some d')
    (hf : ∀ x y, f x = some y → y = x) : d' = d := by
  unfold changeInner at h
  split at h
  · obtain ⟨inner', hinner, rfl⟩ := Option.map_eq_some_iff.1 h
    rw [hf _ _ hinner]
  · cases h

theorem changeTable_some {entries' : Entries} (h : changeTable key f entries = some entries')
    (hf : ∀ x y, f x = some y → y = x) : entries' = entries := by
  fun_induction changeTable key f entries generalizing entries' with
  | case1 => cases h
  | case2 d rest =>
    obtain ⟨d', hd, rfl⟩ := Option.map_eq_some_iff.1 h
    rw [changeInner_some hd hf]
  | case3 k d rest hk ih =>
    obtain ⟨rest', hrest, rfl⟩ := Option.map_eq_some_iff.1 h
    rw [ih hrest]

theorem changeAt_some {entries' : Entries} (h : changeAt some path entries = some entries') :
    entries' = entries := by
  induction path generalizing entries entries' with
  | nil => exact (Option.some.inj h).symm
  | cons key path ih => exact changeTable_some h fun _ _ => ih

/-- A new table may be filled before it is added, or behind that. -/
theorem addEntry_changeTable (inner : Entries) :
    (addEntry (key, .table false inner) entries).bind (changeTable key f) =
      (f inner).bind fun inner => addEntry (key, .table false inner) entries := by
  by_cases hkey : key ∈ entries.map (·.1)
  · have hnone : ∀ inner, addEntry (key, .table false inner) entries = none := fun inner => if_pos hkey
    simp [hnone]
  · have hsome : ∀ inner, addEntry (key, .table false inner) entries =
        some (entries ++ [(key, .table false inner)]) := fun inner => if_neg hkey
    simp only [hsome, Option.bind_some]
    clear hsome
    induction entries with
    | nil => cases hf : f inner <;> simp [changeTable, changeInner, hf]
    | cons e entries ih =>
      rw [List.map_cons, List.mem_cons, not_or] at hkey
      obtain ⟨hne, hkey⟩ := hkey
      rw [List.cons_append, changeTable, if_neg (Ne.symm hne), ih hkey]
      cases f inner <;> rfl

end

def addEntries (new entries : Entries) : Option Entries :=
  new.foldlM (fun entries e => addEntry e entries) entries

theorem addEntries_cons (e : String × Data) (new : Entries) :
    addEntries (e :: new) = fun x => (addEntry e x).bind (addEntries new) := rfl

theorem addEntries_of_nodup {new entries : Entries} (h : ((entries ++ new).map (·.1)).Nodup) :
    addEntries new entries = some (entries ++ new) := by
  induction new generalizing entries with
  | nil => rw [List.append_nil, addEntries, List.foldlM_nil]; rfl
  | cons e new ih =>
    have hnew : e.1 ∉ entries.map (·.1) := by
      rw [List.map_append, List.nodup_append] at h
      exact fun he => h.2.2 e.1 he e.1 List.mem_cons_self rfl
    rw [← List.singleton_append, ← List.append_assoc] at h ⊢
    rw [← ih h, List.singleton_append, addEntries_cons]
    exact congrArg (Option.bind · (addEntries new)) (addEntry_eq_some.2 ⟨hnew, rfl⟩)

theorem lookup_eq_none {key : String} {entries : Entries} (h : key ∉ entries.map (·.1)) :
    entries.lookup key = none :=
  List.lookup_eq_none_iff.2 fun _ he => bne_iff_ne.2 fun heq => h (heq ▸ List.mem_map_of_mem he)

theorem keys_presentFields_sublist (entries : Entries) :
    ((Data.presentFields entries).map (·.1)).Sublist (entries.map (·.1)) := by
  induction entries with
  | nil => exact .slnil
  | cons e entries ih =>
    rw [Data.presentFields]
    split
    · exact ih.cons _
    · exact ih.cons_cons _

theorem isShown_table {inBraces : Bool} {entries : Entries}
    (h : isShown (.table inBraces entries) = true) :
    inBraces = false ∧ areShown entries = true ∧ tablesLast false entries = true ∧
      (entries.map (·.1)).Nodup ∧ (entries.find? (!·.2.isNull)).any (!·.2.isTable) = true := by
  simp only [isShown, isOrdered, Bool.and_eq_true, Bool.not_eq_true', decide_eq_true_eq] at h
  exact ⟨h.1.1, h.1.2, h.2.1.2, h.2.2, h.2.1.1⟩

theorem enter_field {d : Data} {key : String} {path current : List String} {whole whole' : Entries}
    (hcurrent : d.isTable = false → current = path)
    (hadd : changeAt (addEntry (key, d.present)) path whole = some whole')
    (hrows : fieldRows path key d = [.field key d]) (hplain : d.present = d ∧ d.isTable = false) :
    ∃ last, (fieldRows path key d).foldlM Row.enter (current, whole) = some (last, whole') ∧
      (d.isTable = false → last = current) := by
  obtain ⟨hpresent, htable⟩ := hplain
  refine ⟨current, ?_, fun _ => rfl⟩
  rw [hpresent, ← hcurrent htable] at hadd
  rw [hrows, List.foldlM_cons, Row.enter, hadd]
  rfl

mutual
theorem enter_fieldRows : ∀ (d : Data) (key : String) (path current : List String)
    (whole whole' : Entries), isShown d = true → d.isNull = false →
    (d.isTable = false → current = path) →
    changeAt (addEntry (key, d.present)) path whole = some whole' →
    ∃ last, (fieldRows path key d).foldlM Row.enter (current, whole) = some (last, whole') ∧
      (d.isTable = false → last = current)
  | .table inBraces entries, key, path, current, whole, whole', hshown, _, _, hadd => by
    obtain ⟨rfl, hentries, hlast, hkeys, _⟩ := isShown_table hshown
    let shown := Data.presentFields entries
    have hfill : addEntries shown [] = some shown :=
      addEntries_of_nodup (hkeys.sublist (keys_presentFields_sublist entries))
    have hsplit : addEntry (key, .table false shown) = fun x =>
        (addEntry (key, .table false []) x).bind (changeTable key (addEntries shown)) := by
      funext x
      rw [addEntry_changeTable, hfill, Option.bind_some]
    have hpresent : (Data.table false entries).present = .table false shown := by
      rw [Data.present]
    rw [hpresent, hsplit, ← changeAt_bind, ← changeAt_append] at hadd
    obtain ⟨opened, hopened, hadd⟩ := Option.bind_eq_some_iff.1 hadd
    obtain ⟨last, hrows⟩ := enter_layout entries false (path ++ [key]) (path ++ [key]) opened whole'
      hentries hlast (fun _ => rfl) hadd
    refine ⟨last, ?_, fun h => nomatch h⟩
    have hheader : Row.enter (current, whole) (.header path key) = some (path ++ [key], opened) := by
      rw [Row.enter, hopened]
      rfl
    rw [fieldRows, List.foldlM_cons, Row.enter, Option.bind_eq_bind, Option.bind_some,
      List.foldlM_cons, hheader]
    exact hrows
  | .null, _, _, _, _, _, _, h, _, _ => nomatch h
  | .int _, _, _, _, _, _, _, _, hcurrent, hadd => enter_field hcurrent hadd rfl ⟨rfl, rfl⟩
  | .text _, _, _, _, _, _, _, _, hcurrent, hadd => enter_field hcurrent hadd rfl ⟨rfl, rfl⟩
  | .list _, _, _, _, _, _, _, _, hcurrent, hadd => enter_field hcurrent hadd rfl ⟨rfl, rfl⟩
theorem enter_layout : ∀ (entries : List (String × Data)) (tables : Bool)
    (path current : List String) (whole whole' : Entries), areShown entries = true →
    tablesLast tables entries = true → (tables = false → current = path) →
    changeAt (addEntries (Data.presentFields entries)) path whole = some whole' →
    ∃ last, (layout path entries).foldlM Row.enter (current, whole) = some (last, whole')
  | [], _, _, current, whole, whole', _, _, _, hadd => by
    rw [changeAt_some hadd]
    exact ⟨current, rfl⟩
  | (key, d) :: entries, tables, path, current, whole, whole', hshown, hlast, hcurrent, hadd => by
    simp only [areShown, Bool.and_eq_true] at hshown
    simp only [tablesLast, Bool.and_eq_true] at hlast
    obtain ⟨⟨_, hd⟩, hentries⟩ := hshown
    obtain ⟨hhere, hlast⟩ := hlast
    rw [layout, List.foldlM_append]
    by_cases hnull : d.isNull = true
    · obtain rfl : d = .null := by cases d <;> first | rfl | cases hnull
      change tablesLast (tables || false) entries = true at hlast
      rw [Bool.or_false] at hlast
      exact enter_layout entries tables path current whole whole' hentries hlast hcurrent hadd
    · have hplain : d.isTable = false → tables = false := fun h => by simpa [hnull, h] using hhere
      rw [Data.presentFields, if_neg hnull, addEntries_cons, ← changeAt_bind] at hadd
      obtain ⟨next, hfirst, hadd⟩ := Option.bind_eq_some_iff.1 hadd
      obtain ⟨middle, hrows, hmiddle⟩ := enter_fieldRows d key path current whole next hd
        (Bool.eq_false_iff.2 hnull) (fun h => hcurrent (hplain h)) hfirst
      rw [hrows]
      refine enter_layout entries (tables || d.isTable) path middle next whole' hentries hlast ?_ hadd
      intro h
      obtain ⟨htables, htable⟩ := Bool.or_eq_false_iff.1 h
      exact (hmiddle htable).trans (hcurrent htables)
end

/-- Behind comments, the rows of a table that can be shown describe what is present of it. -/
theorem table?_layout {entries : Entries} (h : isShown (.table false entries) = true)
    (comments : List String) :
    table? (comments.map .comment ++ layout [] entries) =
      some (.table false (Data.presentFields entries)) := by
  obtain ⟨_, hentries, hlast, hkeys, _⟩ := isShown_table h
  have hcomments : (comments.map Row.comment).foldlM Row.enter ([], []) = some ([], []) := by
    induction comments with
    | nil => rfl
    | cons text comments ih => exact ih
  have hfill : addEntries (Data.presentFields entries) [] = some (Data.presentFields entries) :=
    addEntries_of_nodup (hkeys.sublist (keys_presentFields_sublist entries))
  obtain ⟨last, hrows⟩ := enter_layout entries false [] [] [] (Data.presentFields entries) hentries
    hlast (fun _ => rfl) hfill
  rw [table?, List.foldlM_append, hcomments, Option.bind_eq_bind, Option.bind_some, hrows]
  rfl

theorem isClear_field {d : Data} {key : String} {path : List String}
    (hrows : fieldRows path key d = [.field key d]) (hkey : isKey key = true)
    (hd : isPlain d = true) : ∀ row ∈ fieldRows path key d, row.isClear = true := by
  rw [hrows, List.forall_mem_singleton, Row.isClear, hkey, hd]
  rfl

mutual
theorem isClear_fieldRows : ∀ (d : Data) (key : String) (path : List String), isShown d = true →
    isKey key = true → path.all isKey = true → ∀ row ∈ fieldRows path key d, row.isClear = true
  | .null, _, _, _, _, _ => by simp [fieldRows]
  | .table inBraces entries, key, path, hshown, hkey, hpath => by
    have hpath' : (path ++ [key]).all isKey = true := by simp [hpath, hkey]
    rw [fieldRows, List.forall_mem_cons, List.forall_mem_cons]
    exact ⟨rfl, hpath', isClear_layout entries (path ++ [key]) (isShown_table hshown).2.1 hpath'⟩
  | .int _, _, _, hshown, hkey, _ => isClear_field rfl hkey hshown
  | .text _, _, _, hshown, hkey, _ => isClear_field rfl hkey hshown
  | .list _, _, _, hshown, hkey, _ => isClear_field rfl hkey hshown
theorem isClear_layout : ∀ (entries : List (String × Data)) (path : List String),
    areShown entries = true → path.all isKey = true → ∀ row ∈ layout path entries, row.isClear = true
  | [], _, _, _ => by simp [layout]
  | (key, d) :: entries, path, hshown, hpath => by
    simp only [areShown, Bool.and_eq_true] at hshown
    obtain ⟨⟨hkey, hd⟩, hentries⟩ := hshown
    rw [layout, List.forall_mem_append]
    exact ⟨isClear_fieldRows d key path hd hkey hpath, isClear_layout entries path hentries hpath⟩
end

theorem any_isField_layout {entries : Entries}
    (hplain : (entries.find? (!·.2.isNull)).any (!·.2.isTable) = true) (path : List String) :
    (layout path entries).any Row.isField = true := by
  induction entries with
  | nil => cases hplain
  | cons e entries ih =>
    obtain ⟨key, d⟩ := e
    rw [layout, List.any_append]
    by_cases hnull : d.isNull = true
    · rw [List.find?_cons_of_neg (by simp [hnull])] at hplain
      rw [ih hplain, Bool.or_true]
    · rw [List.find?_cons_of_pos (by simp [hnull])] at hplain
      cases d <;> first | rfl | exact absurd rfl hnull | cases hplain

/-- What a documented library writes for a table, it reads back, with comments before it. -/
theorem Library.Documented.read_write {lib : Library} (h : lib.Documented) {entries : Entries}
    (hshown : isShown (.table false entries) = true) {comments : List String}
    (hcomments : ∀ text ∈ comments, text.toList.all isCommentChar = true) :
    ∃ text, lib.write (.table false entries) = some text ∧
      lib.read (rowsText (comments.map .comment) ++ text) =
        some (.table false (Data.presentFields entries)) := by
  obtain ⟨_, hentries, _, _, hplain⟩ := isShown_table hshown
  refine ⟨_, h.write entries hshown, ?_⟩
  have hclear : ∀ row ∈ comments.map Row.comment ++ layout [] entries, row.isClear = true := by
    rw [List.forall_mem_append, List.forall_mem_map]
    exact ⟨hcomments, isClear_layout entries [] hentries rfl⟩
  have hread := h.read _ _ hclear ?_ (table?_layout hshown comments)
  · rwa [rowsText, List.map_append, String.join_append] at hread
  · rw [List.any_append, any_isField_layout hplain, Bool.or_true]

end Toml
end ClausalProof
