import ClausalProof.Proofs.Toml.Library
import ClausalProof.Proofs.Toml.Value

set_option autoImplicit false

/-!
The built-in library does what is known of libraries. Each row of a text is read as a line of its
own, or as none, whatever was read before (`Spells`); and as the lines are taken in one by one, the
tables that have been read are those that the rows describe (`Follows`).
-/
namespace ClausalProof.Toml

/-- Characters that are read as some lines of their own. -/
structure Spells (s : List Char) (ls : List Line) : Prop where
  clean : '\r' ∉ s
  take : ∀ (before : List Line) (rest : List Char),
    Reading.take ⟨before, [], []⟩ (s ++ rest) = Reading.take ⟨ls.reverse ++ before, [], []⟩ rest

namespace Spells

theorem nil : Spells [] [] := ⟨by simp, fun _ _ => rfl⟩

theorem append {s t : List Char} {ls ms : List Line} (hs : Spells s ls) (ht : Spells t ms) :
    Spells (s ++ t) (ls ++ ms) where
  clean := by simp [hs.clean, ht.clean]
  take before rest := by
    rw [List.append_assoc, hs.take, ht.take, List.reverse_append, List.append_assoc]

end Spells

section

variable {key : String}

theorem isWordChar_of_isKey (h : isKey key = true) : ∀ c ∈ key.toList, isWordChar c = true :=
  List.all_eq_true.1 (Bool.and_eq_true_iff.1 h).2

theorem not_mem_of_isKey (h : isKey key = true) : '\r' ∉ key.toList := fun hmem =>
  nomatch isWordChar_of_isKey h _ hmem

theorem token?_key (h : isKey key = true) {rest : List Char}
    (hrest : rest.head?.any isWordChar = false) :
    ∃ c cs, key.toList = c :: cs ∧ token? c (cs ++ rest) = some (.word key.toList, rest) := by
  have hword := isWordChar_of_isKey h
  rcases hkey : key.toList with _ | ⟨c, cs⟩
  · simp [isKey, hkey] at h
  · obtain ⟨hc, hcs⟩ := List.forall_mem_cons.1 (hkey ▸ hword)
    exact ⟨c, cs, rfl, token?_word hc hcs hrest⟩

end

theorem line?_pair {key : String} {item : Item} {d : Data} (hitem : value? [item] = some (d, [])) :
    line? [.token (.word key.toList), .token (.blank true), .token .equals, .token (.blank true), item] =
      some (some (.pair ⟨[key], d⟩)) := by
  let items : List Item :=
    [.token (.word key.toList), .token (.blank true), .token .equals, .token (.blank true), item]
  have hkey : key? (items.takeWhile (!isEquals ·)) = some [String.ofList key.toList] := rfl
  have hafter : items.dropWhile (!isEquals ·) = [.token .equals, .token (.blank true), item] := rfl
  have hblank : ¬ item.isBlank = true := by
    cases item with
    | value => exact Bool.false_ne_true
    | token t => cases t <;> first | exact Bool.false_ne_true | cases hitem
  have hdrop : List.dropWhile Item.isBlank [.token (.blank true), item] = [item] :=
    (List.dropWhile_cons_of_pos rfl).trans (List.dropWhile_cons_of_neg hblank)
  have hpair : pair? Item.isIgnorable items = some ⟨[key], d⟩ := by
    rw [String.ofList_toList] at hkey
    simp only [pair?, hkey, hafter, Option.bind_eq_bind, Option.bind_some, hdrop, hitem]
    rfl
  change some <$> (Line.pair <$> pair? Item.isIgnorable items) = _
  rw [hpair]
  rfl

theorem Reading.step_newline {before : List Line} {items : List Item} {line : Line}
    (h : line? items.reverse = some (some line)) :
    step ⟨before, items, []⟩ .newline = some ⟨line :: before, [], []⟩ := by
  have hend : endLine ⟨before, items, []⟩ = some ⟨line :: before, [], []⟩ := by
    rw [endLine, h]
    rfl
  unfold step
  split <;> exact hend

theorem spells_blank : Spells (Row.text .blank).toList [] where
  clean := by decide
  take _ _ := Reading.take_cons rfl rfl

theorem spells_comment {text : String} (h : text.toList.all isCommentChar = true) :
    Spells (Row.text (.comment text)).toList [] := by
  have hchars := List.all_eq_true.1 h
  have htext : (Row.text (.comment text)).toList = '#' :: (text.toList ++ ['\n']) := by
    simp [Row.text]
  rw [htext]
  refine ⟨?_, fun before rest => ?_⟩
  · have hclean : '\r' ∉ text.toList := fun hmem => absurd (hchars _ hmem) (by decide)
    simpa using hclean
  · have hend : ('\n' :: rest).head?.any isCommentChar = false := rfl
    have htoken : token? '#' (text.toList ++ '\n' :: rest) = some (.comment, '\n' :: rest) :=
      congrArg (fun rest => some (Token.comment, rest)) (Text.span_append hchars hend).2
    calc _ = Reading.take ⟨before, [], []⟩ ('#' :: (text.toList ++ '\n' :: rest)) := by simp
      _ = Reading.take ⟨before, [.token .comment], []⟩ ('\n' :: rest) := Reading.take_cons htoken rfl
      _ = Reading.take ⟨before, [], []⟩ rest := Reading.take_cons rfl rfl

theorem spells_field {key : String} (hkey : isKey key = true) {d : Data} (hd : isPlain d = true) :
    Spells (Row.text (.field key d)).toList [.pair ⟨[key], d⟩] where
  clean := by
    simp [Row.text, not_mem_of_isKey hkey, (writes_valueText d hd).clean]
  take before rest := by
    have hvalue := writes_valueText d hd
    let after := (valueText d).toList ++ '\n' :: rest
    have hblank : (' ' :: '=' :: ' ' :: after).head?.any isWordChar = false := rfl
    obtain ⟨c, cs, hcs, htoken⟩ := token?_key hkey hblank
    obtain ⟨item, hitem, hread⟩ := hvalue.item
    have hstarts : after.head?.any isBlankChar = false := by
      obtain ⟨d, ds, hds, hd⟩ := hvalue.starts
      simp only [after, hds]
      exact hd
    let word := Item.token (.word key.toList)
    let blank := Item.token (.blank true)
    let equals := Item.token .equals
    have hend : Reading.step ⟨before, [item, blank, equals, blank, word], []⟩ .newline =
        some ⟨.pair ⟨[key], d⟩ :: before, [], []⟩ :=
      Reading.step_newline (line?_pair hitem)
    calc _ = Reading.take ⟨before, [], []⟩ (c :: (cs ++ ' ' :: '=' :: ' ' :: after)) := by
          simp [Row.text, hcs, after]
      _ = Reading.take ⟨before, [word], []⟩ (' ' :: '=' :: ' ' :: after) := Reading.take_cons htoken rfl
      _ = Reading.take ⟨before, [blank, word], []⟩ ('=' :: ' ' :: after) := Reading.take_cons rfl rfl
      _ = Reading.take ⟨before, [equals, blank, word], []⟩ (' ' :: after) := Reading.take_cons rfl rfl
      _ = Reading.take ⟨before, [blank, equals, blank, word], []⟩ after :=
        Reading.take_cons (token?_blank hstarts) rfl
      _ = Reading.take ⟨before, [item, blank, equals, blank, word], []⟩ ('\n' :: rest) :=
        hread _ _ rfl rfl
      _ = Reading.take ⟨.pair ⟨[key], d⟩ :: before, [], []⟩ rest := Reading.take_cons rfl hend

/-- The items of a dotted path. -/
def pathItems (key : String) (path : List String) : List Item :=
  .token (.word key.toList) :: path.flatMap fun key => [.token .period, .token (.word key.toList)]

theorem plain_of_mem_pathItems {key : String} {path : List String} {item : Item}
    (h : item ∈ pathItems key path) : item.isBlank = false ∧ isRightBracket item = false := by
  simp only [pathItems, List.mem_cons, List.mem_flatMap] at h
  rcases h with rfl | ⟨_, _, rfl | rfl | h⟩
  · exact ⟨rfl, rfl⟩
  · exact ⟨rfl, rfl⟩
  · exact ⟨rfl, rfl⟩
  · cases h

theorem keyParts?_pathItems (key : String) (path : List String) :
    keyParts? (pathItems key path) = some (key :: path) := by
  induction path generalizing key with
  | nil =>
    change some [String.ofList key.toList] = _
    rw [String.ofList_toList]
  | cons next path ih =>
    change (String.ofList key.toList :: ·) <$> keyParts? (pathItems next path) = _
    rw [ih, String.ofList_toList]
    rfl

theorem line?_header (key : String) (path : List String) :
    line? (.token .leftBracket :: pathItems key path ++ [.token .rightBracket]) =
      some (some (.header (key :: path) false)) := by
  let items := pathItems key path
  have hitems : ∀ item ∈ items, (!isRightBracket item) = true := fun item h => by
    rw [(plain_of_mem_pathItems h).2]
    rfl
  have hblank : items.filter (!·.isBlank) = items :=
    List.filter_eq_self.2 fun item h => by
      rw [(plain_of_mem_pathItems h).1]
      rfl
  have hend : [Item.token .rightBracket].head?.any (!isRightBracket ·) = false := rfl
  obtain ⟨htake, hdrop⟩ := Text.span_append hitems hend
  have hheader : header? false (items ++ [.token .rightBracket]) =
      some (.header (key :: path) false) := by
    rw [header?, htake, key?, hblank, keyParts?_pathItems]
    simp only [hdrop]
    rfl
  change some <$> header? false (items ++ [.token .rightBracket]) = _
  rw [hheader]
  rfl

namespace Reading

variable (before : List Line) (items : List Item)

theorem step_header {t : Token} (ht : t ≠ .newline) :
    step ⟨before, items ++ [.token .leftBracket], []⟩ t =
      some ⟨before, .token t :: items ++ [.token .leftBracket], []⟩ := by
  have hheader : inHeader ⟨before, items ++ [.token .leftBracket], []⟩ = true := by
    rw [inHeader, List.reverse_append]
    rfl
  refine (if_pos hheader).trans ?_
  cases t <;> first | rfl | contradiction

theorem take_parts {path : List String} (hpath : ∀ key ∈ path, isKey key = true) (rest : List Char) :
    take ⟨before, items ++ [.token .leftBracket], []⟩
      (path.flatMap (fun key => '.' :: key.toList) ++ ']' :: rest) =
    take ⟨before, .token .rightBracket ::
      ((path.flatMap fun key => [.token .period, .token (.word key.toList)]).reverse ++ items) ++
        [.token .leftBracket], []⟩ rest := by
  induction path generalizing items with
  | nil => exact take_cons rfl (step_header _ _ (by simp))
  | cons key path ih =>
    obtain ⟨hkey, hpath⟩ := List.forall_mem_cons.1 hpath
    let more := path.flatMap (fun key => '.' :: key.toList) ++ ']' :: rest
    have hmore : more.head?.any isWordChar = false := by cases path <;> rfl
    obtain ⟨c, cs, hcs, htoken⟩ := token?_key hkey hmore
    calc _ = take ⟨before, items ++ [.token .leftBracket], []⟩ ('.' :: c :: (cs ++ more)) := by
          simp [hcs, more]
      _ = take ⟨before, .token .period :: items ++ [.token .leftBracket], []⟩ (c :: (cs ++ more)) :=
        take_cons rfl (step_header _ _ (by simp))
      _ = take ⟨before, .token (.word key.toList) :: .token .period :: items ++ [.token .leftBracket], []⟩
          more := take_cons htoken (step_header _ _ (by simp))
      _ = _ := by
        rw [ih _ hpath]
        simp

end Reading

theorem spells_header {path : List String} {key : String}
    (hpath : (path ++ [key]).all isKey = true) :
    Spells (Row.text (.header path key)).toList [.header (path ++ [key]) false] := by
  obtain ⟨first, parts, hparts⟩ : ∃ first parts, path ++ [key] = first :: parts := by
    cases path <;> exact ⟨_, _, rfl⟩
  have hkeys := List.all_eq_true.1 hpath
  have htext : (Row.text (.header path key)).toList =
      '[' :: (first.toList ++ (parts.flatMap (fun key => '.' :: key.toList) ++ [']', '\n'])) := by
    rw [Row.text, hparts, String.toList_append, String.toList_append, toList_intercalate_cons]
    simp
  rw [hparts] at hkeys ⊢
  have hclean : ∀ part ∈ first :: parts, '\r' ∉ part.toList := fun part hpart =>
    not_mem_of_isKey (hkeys part hpart)
  obtain ⟨hfirst, hrest⟩ := List.forall_mem_cons.1 hkeys
  rw [htext]
  refine ⟨by simpa using hclean, fun before rest => ?_⟩
  let more := parts.flatMap (fun key => '.' :: key.toList) ++ ']' :: '\n' :: rest
  have hmore : more.head?.any isWordChar = false := by cases parts <;> rfl
  obtain ⟨c, cs, hcs, htoken⟩ := token?_key hfirst hmore
  let items := Item.token .leftBracket :: pathItems first parts ++ [.token .rightBracket]
  have hline : line? items.reverse.reverse = some (some (.header (first :: parts) false)) := by
    rw [List.reverse_reverse]
    exact line?_header first parts
  calc _ = Reading.take ⟨before, [], []⟩ ('[' :: c :: (cs ++ more)) := by simp [hcs, more]
    _ = Reading.take ⟨before, [.token .leftBracket], []⟩ (c :: (cs ++ more)) :=
      Reading.take_cons rfl rfl
    _ = Reading.take ⟨before, [.token (.word first.toList), .token .leftBracket], []⟩ more :=
      Reading.take_cons htoken rfl
    _ = Reading.take ⟨before, items.reverse, []⟩ ('\n' :: rest) := by
      refine (Reading.take_parts before [.token (.word first.toList)] hrest ('\n' :: rest)).trans ?_
      simp [items, pathItems]
    _ = _ := Reading.take_cons rfl (Reading.step_newline hline)

/-- The lines that a row is read as. -/
def Row.lines : Row → List Line
  | .comment _ => []
  | .blank => []
  | .field key d => [.pair ⟨[key], d⟩]
  | .header path key => [.header (path ++ [key]) false]

theorem spells_row {row : Row} (h : row.isClear = true) : Spells row.text.toList row.lines := by
  cases row with
  | comment text => exact spells_comment h
  | blank => exact spells_blank
  | field key d =>
    obtain ⟨hkey, hd⟩ := Bool.and_eq_true_iff.1 h
    exact spells_field hkey hd
  | header path key => exact spells_header h

theorem spells_rows {rows : List Row} (h : ∀ row ∈ rows, row.isClear = true) :
    Spells (rowsText rows).toList (rows.flatMap Row.lines) := by
  induction rows with
  | nil => exact .nil
  | cons row rows ih =>
    obtain ⟨hrow, hrows⟩ := List.forall_mem_cons.1 h
    rw [rowsText, List.map_cons, String.join_cons, String.toList_append]
    exact (spells_row hrow).append (ih hrows)

theorem foldLineEnds_of_clean {cs : List Char} (h : '\r' ∉ cs) : foldLineEnds cs = cs := by
  fun_induction foldLineEnds cs with
  | case1 => simp at h
  | case2 c cs _ ih => rw [ih fun hmem => h (List.mem_cons_of_mem _ hmem)]
  | case3 => rfl

theorem lines?_of_spells {text : String} {ls : List Line} (h : Spells text.toList ls)
    (hmark : text.toList.head? ≠ some '\ufeff') : lines? text = some ls := by
  -- neither a byte order mark nor a line end is changed before the scan
  have htokens : tokens? text = scan text.toList := by
    unfold tokens?
    split
    · rename_i cs hcs
      rw [hcs] at hmark
      exact absurd rfl hmark
    · rw [foldLineEnds_of_clean h.clean]
  have htake := h.take [] []
  rw [List.append_nil, List.append_nil, Reading.take_nil] at htake
  obtain ⟨tokens, hscan, hread⟩ := Option.bind_eq_some_iff.1 htake
  rw [lines?, htokens, hscan]
  change Reading.lines? tokens = some ls
  rw [Reading.lines?, hread]
  change some ls.reverse.reverse = some ls
  rw [List.reverse_reverse]

/-- No row starts with a byte order mark. -/
theorem exists_head_text {row : Row} (h : row.isClear = true) :
    ∃ c cs, row.text.toList = c :: cs ∧ c ≠ '\ufeff' := by
  cases row with
  | comment text =>
    have htext : (Row.text (.comment text)).toList = '#' :: (text.toList ++ ['\n']) := by
      simp [Row.text]
    exact ⟨_, _, htext, by decide⟩
  | blank => exact ⟨_, _, rfl, by decide⟩
  | field key d =>
    obtain ⟨hkey, _⟩ := Bool.and_eq_true_iff.1 h
    have hnil : ([] : List Char).head?.any isWordChar = false := rfl
    obtain ⟨c, cs, hcs, _⟩ := token?_key hkey hnil
    have hc := isWordChar_of_isKey hkey c (hcs ▸ List.mem_cons_self)
    refine ⟨c, cs ++ (" = " ++ valueText d ++ "\n").toList, ?_, fun hmark => ?_⟩
    · simp [Row.text, hcs]
    · rw [hmark] at hc
      cases hc
  | header path key =>
    have htext : (Row.text (.header path key)).toList =
        '[' :: ((".".intercalate (path ++ [key])).toList ++ [']', '\n']) := by
      simp [Row.text]
    exact ⟨_, _, htext, by decide⟩

theorem head?_rowsText {rows : List Row} (h : ∀ row ∈ rows, row.isClear = true) :
    (rowsText rows).toList.head? ≠ some '\ufeff' := by
  cases rows with
  | nil => simp [rowsText]
  | cons row rows =>
    obtain ⟨c, cs, hcs, hc⟩ := exists_head_text (List.forall_mem_cons.1 h).1
    rw [rowsText, List.map_cons, String.join_cons, String.toList_append, hcs]
    exact fun hhead => hc (Option.some.inj hhead)

namespace Node

mutual
/-- A table all of whose tables have been opened. -/
def ofData : Data → Node
  | .table false entries => .table true (ofEntries entries)
  | d => .value d
def ofEntries : List (String × Data) → Fields
  | [] => []
  | (key, d) :: entries => (key, ofData d) :: ofEntries entries
end

theorem ofData_of_isTable {d : Data} (h : d.isTable = false) : ofData d = .value d := by
  cases d <;> first | rfl | cases h

mutual
theorem toData_ofData : ∀ d : Data, (ofData d).toData = d
  | .table false entries => congrArg (Data.table false) (fieldsToData_ofEntries entries)
  | .table true _ => rfl
  | .null => rfl
  | .bool _ => rfl
  | .int _ => rfl
  | .real => rfl
  | .date => rfl
  | .text _ => rfl
  | .list _ => rfl
theorem fieldsToData_ofEntries : ∀ entries : List (String × Data),
    fieldsToData (ofEntries entries) = entries
  | [] => rfl
  | (key, d) :: entries => by
    rw [ofEntries, fieldsToData, toData_ofData d, fieldsToData_ofEntries entries]
end

theorem ofEntries_append (entries more : Entries) :
    ofEntries (entries ++ more) = ofEntries entries ++ ofEntries more := by
  induction entries with
  | nil => rfl
  | cons e entries ih => rw [List.cons_append, ofEntries, ih, ofEntries, List.cons_append]

section

variable {key : String} {entries entries' : Entries}

theorem find?_cons_of_ne {k : String} (h : k ≠ key) (node : Node) (fields : Fields) :
    find? false key ((k, node) :: fields) = find? false key fields := by
  have hne : ¬ ((k == key && node.isPair == false) = true) := by simp [h]
  exact congrArg (Option.map _) (List.find?_cons_of_neg hne)

theorem put_cons_of_ne {k : String} (h : k ≠ key) (node old : Node) (fields : Fields) :
    put false key node ((k, old) :: fields) = (k, old) :: put false key node fields := by
  have hne : ¬ ((k == key && old.isPair == false) = true) := by simp [h]
  exact if_neg hne

theorem find?_ofEntries (h : key ∉ entries.map (·.1)) : find? false key (ofEntries entries) = none := by
  induction entries with
  | nil => rfl
  | cons e entries ih =>
    rw [List.map_cons, List.mem_cons, not_or] at h
    rw [ofEntries, find?_cons_of_ne (Ne.symm h.1), ih h.2]

theorem put_ofEntries (h : key ∉ entries.map (·.1)) (node : Node) :
    put false key node (ofEntries entries) = ofEntries entries ++ [(key, node)] := by
  induction entries with
  | nil => rfl
  | cons e entries ih =>
    rw [List.map_cons, List.mem_cons, not_or] at h
    rw [ofEntries, put_cons_of_ne (Ne.symm h.1), ih h.2, List.cons_append]

/-- A change of the table under a key is one of the node under it. -/
theorem put_of_changeTable {change : Entries → Option Entries}
    (h : changeTable key change entries = some entries') :
    ∃ inner inner', change inner = some inner' ∧
      find? false key (ofEntries entries) = some (.table true (ofEntries inner)) ∧
      put false key (.table true (ofEntries inner')) (ofEntries entries) = ofEntries entries' := by
  fun_induction changeTable key change entries generalizing entries' with
  | case1 => cases h
  | case2 d rest =>
    obtain ⟨d', hd, rfl⟩ := Option.map_eq_some_iff.1 h
    unfold changeInner at hd
    split at hd
    · rename_i inner
      obtain ⟨inner', hinner, rfl⟩ := Option.map_eq_some_iff.1 hd
      refine ⟨inner, inner', hinner, ?_, ?_⟩ <;> simp [ofEntries, ofData, find?, put, isPair]
    · cases hd
  | case3 k d rest hk ih =>
    obtain ⟨rest', hrest, rfl⟩ := Option.map_eq_some_iff.1 h
    obtain ⟨inner, inner', hinner, hfind, hput⟩ := ih hrest
    refine ⟨inner, inner', hinner, ?_, ?_⟩
    · rw [ofEntries, find?_cons_of_ne hk, hfind]
    · rw [ofEntries, put_cons_of_ne hk, hput, ofEntries]

theorem exists_of_changeAt {change : Entries → Option Entries} {path : List String}
    (h : changeAt change path entries = some entries') :
    ∃ inner inner', change inner = some inner' := by
  induction path generalizing entries entries' with
  | nil => exact ⟨_, _, h⟩
  | cons k path ih =>
    obtain ⟨inner, inner', hinner, _⟩ := put_of_changeTable h
    exact ih hinner

/-- A header opens a table where it is added, and the tables on the way have been opened. -/
theorem openTable_of_changeAt {path : List String} {inner : Entries}
    (h : changeAt (addEntry (key, .table false inner)) path entries = some entries') :
    openTable false (ofEntries inner) (path ++ [key]) (some (.table true (ofEntries entries))) =
      some (.table true (ofEntries entries')) := by
  induction path generalizing entries entries' with
  | nil =>
    obtain ⟨hnew, rfl⟩ := addEntry_eq_some.1 h
    rw [List.nil_append, openTable, find?_ofEntries hnew, openTable, Option.bind_eq_bind,
      Option.bind_some, put_ofEntries hnew, ofEntries_append]
    rfl
  | cons k path ih =>
    obtain ⟨table, table', hchange, hfind, hput⟩ := put_of_changeTable h
    rw [List.cons_append, openTable, hfind, ih hchange, Option.bind_eq_bind, Option.bind_some, hput]
    rfl

end

end Node

/-- What the rows so far describe, and what has been read of them: the table of the last header is
    read to the next one before it is opened. -/
inductive Follows : Node → Section → List String × Entries → Prop where
  | root {entries : Entries} :
    Follows (.table false []) ⟨[], false, Node.ofEntries entries⟩ ([], entries)
  | table {before inner entries : Entries} {path : List String} {key : String}
    (added : changeAt (addEntry (key, .table false inner)) path before = some entries) :
    Follows (.table true (Node.ofEntries before)) ⟨path ++ [key], false, Node.ofEntries inner⟩
      (path ++ [key], entries)

namespace Follows

variable {root : Node} {current : Section} {s s' : List String × Entries}

theorem openTable (h : Follows root current s) :
    Node.openTable current.isArray current.fields current.path (some root) =
      some (.table true (Node.ofEntries s.2)) := by
  cases h with
  | root => simp [Node.openTable]
  | table added => exact Node.openTable_of_changeAt added

theorem field (h : Follows root current s) {key : String} {d : Data} (hd : isPlain d = true)
    (hs : Row.enter s (.field key d) = some s') :
    Follows root { current with fields := current.fields ++ [(key, .value d)] } s' := by
  have htable : d.isTable = false := by
    cases d <;> first | rfl | cases hd
  have hfields (entries : Entries) : Node.ofEntries entries ++ [(key, .value d)] =
      Node.ofEntries (entries ++ [(key, d)]) := by
    rw [Node.ofEntries_append, Node.ofEntries, Node.ofData_of_isTable htable, Node.ofEntries]
  obtain ⟨entries', hentries, rfl⟩ := Option.map_eq_some_iff.1 hs
  cases h with
  | root =>
    obtain ⟨_, rfl⟩ := addEntry_eq_some.1 hentries
    rw [hfields]
    exact .root
  | @table before inner entries path last added =>
    have hadded : changeAt (fun x => (addEntry (last, .table false inner) x).bind
        (changeTable last (addEntry (key, d)))) path before = some entries' := by
      rw [← changeAt_bind, added, Option.bind_some, ← changeAt_append]
      exact hentries
    simp only [addEntry_changeTable] at hadded
    obtain ⟨_, _, hsome⟩ := Node.exists_of_changeAt hadded
    obtain ⟨inner', hinner, _⟩ := Option.bind_eq_some_iff.1 hsome
    rw [hinner] at hadded
    obtain ⟨_, rfl⟩ := addEntry_eq_some.1 hinner
    rw [hfields]
    exact .table hadded

theorem header (s : List String × Entries) {path : List String} {key : String}
    (hs : Row.enter s (.header path key) = some s') :
    Follows (.table true (Node.ofEntries s.2)) ⟨path ++ [key], false, []⟩ s' := by
  obtain ⟨entries, hentries, rfl⟩ := Option.map_eq_some_iff.1 hs
  exact .table hentries

end Follows

theorem assemble_rows {rows : List Row} (hrows : ∀ row ∈ rows, row.isClear = true) {root : Node}
    {current : Section} {s s' : List String × Entries} (h : Follows root current s)
    (hs : rows.foldlM Row.enter s = some s') :
    assemble root current (rows.flatMap Row.lines) = some (.table true (Node.ofEntries s'.2)) := by
  induction rows generalizing root current s with
  | nil =>
    obtain rfl := Option.some.inj hs
    exact h.openTable
  | cons row rows ih =>
    obtain ⟨hrow, hrest⟩ := List.forall_mem_cons.1 hrows
    rw [List.foldlM_cons] at hs
    obtain ⟨next, hnext, hlast⟩ := Option.bind_eq_some_iff.1 hs
    rw [List.flatMap_cons]
    cases row with
    | comment text =>
      obtain rfl := Option.some.inj hnext
      exact ih hrest h hlast
    | blank =>
      obtain rfl := Option.some.inj hnext
      exact ih hrest h hlast
    | field key d => exact ih hrest (h.field (Bool.and_eq_true_iff.1 hrow).2 hnext) hlast
    | header path key =>
      rw [Row.lines, List.singleton_append, assemble, h.openTable]
      exact ih hrest (.header s hnext) hlast

theorem read?_rowsText {rows : List Row} {d : Data} (hrows : ∀ row ∈ rows, row.isClear = true)
    (hfield : rows.any Row.isField = true) (hd : table? rows = some d) :
    read? (rowsText rows) = some d := by
  obtain ⟨s, hs, rfl⟩ := Option.map_eq_some_iff.1 hd
  have hlines := lines?_of_spells (spells_rows hrows) (head?_rowsText hrows)
  have hpairs : loneHeader? (rows.flatMap Row.lines) = none := by
    obtain ⟨row, hmem, hrow⟩ := List.any_eq_true.1 hfield
    cases row with
    | field key d =>
      have hpair : Line.pair ⟨[key], d⟩ ∈ rows.flatMap Row.lines :=
        List.mem_flatMap.2 ⟨_, hmem, List.mem_singleton_self _⟩
      unfold loneHeader?
      split
      · rename_i heq
        rw [heq] at hpair
        cases List.mem_singleton.1 hpair
      · rfl
    | _ => cases hrow
  have hstart : Follows (.table false []) ⟨[], false, Node.ofEntries []⟩ ([], []) := .root
  have htable : ofLines? (rows.flatMap Row.lines) = some (.table false s.2) := by
    refine (congrArg (Option.map Node.toData) (assemble_rows hrows hstart hs)).trans ?_
    exact congrArg (fun entries => some (Data.table false entries)) (Node.fieldsToData_ofEntries s.2)
  rw [read?, hlines, Option.bind_eq_bind, Option.bind_some, hpairs, htable]

theorem filter_key {entries : Entries} (hkeys : (entries.map (·.1)).Nodup) (name : String) :
    entries.filter (·.1 == name) = ((entries.lookup name).map (name, ·)).toList := by
  induction entries with
  | nil => rfl
  | cons e entries ih =>
    obtain ⟨he, hkeys⟩ := List.nodup_cons.1 hkeys
    replace he : e.1 ∉ entries.map (·.1) := he
    rw [List.filter_cons, ih hkeys]
    by_cases hname : e.1 = name
    · subst hname
      rw [beq_self_eq_true, if_pos rfl, lookup_eq_none he, List.lookup_cons_self]
      rfl
    · rw [beq_false_of_ne hname, if_neg Bool.false_ne_true, List.lookup_cons,
        beq_false_of_ne (Ne.symm hname)]

theorem count?_int {n : Nat} (h : n ≤ Int64.maxValue.toInt) : Data.count? (.int n) = some n := by
  have hmax : Int64.maxValue.toInt < UInt64.size := by decide
  have hfits : (0 : Int) ≤ n ∧ (n : Int) < UInt64.size := by omega
  rw [Data.count?, if_pos hfits, Int.toNat_natCast]

/-- Fields are found by their names, and what is in range is read. -/
theorem documented_reader (saysNothing : Data → Bool) : (Data.reader saysNothing).Documented where
  fields names entries hkeys hnull := by
    refine mapM_eq_some fun name _ => ?_
    rw [filter_key hkeys name]
    cases hlookup : entries.lookup name with
    | none => rfl
    | some d =>
      have hd : d.isNull = false := by
        obtain ⟨_, _, hentries, _⟩ := List.lookup_eq_some_iff.1 hlookup
        exact hnull (name, d) (hentries ▸ List.mem_append_right _ List.mem_cons_self)
      change some d.unlessNull = some (some d)
      rw [Data.unlessNull, hd]
      rfl
  name _ := rfl
  items _ := rfl
  int _ hmin hmax := if_pos ⟨hmin, hmax⟩
  count _ hn := by
    have hcount : (Data.reader saysNothing).count = Data.count? := rfl
    rw [hcount, count?_int hn]

theorem builtIn_documented : builtIn.Documented where
  write _ hshown := if_pos hshown
  read _ _ := read?_rowsText
  reader := documented_reader Data.isEmptyTable

end ClausalProof.Toml
