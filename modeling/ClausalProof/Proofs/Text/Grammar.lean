import ClausalProof.Problem
import ClausalProof.Proofs.Refinement
import ClausalProof.Proofs.Text.Numeral

set_option autoImplicit false

/-!
The grammar of formulas, proofs and lists of clauses, as relations between bytes and what they write.
A text may write a clause in many ways: with leading zeros, a minus before a 0, any blanks between
the numbers and comments between the clauses. The readers agree with the grammar: they accept a text
exactly if it writes something, and return just that.
-/
namespace ClausalProof

open Text

namespace Text

/-- A number may end before these bytes: a blank follows, or nothing. -/
def Ends : List UInt8 → Prop
  | [] => True
  | b :: _ => isBlank b = true

/-- One or more blanks. -/
def Gap (bs : List UInt8) : Prop := bs ≠ [] ∧ ∀ b ∈ bs, isBlank b = true

end Text

/-- Numbers with blanks between them, of which the last one is 0 and no other. -/
inductive Clause.Written : Clause → List UInt8 → Prop where
  | nil {bs : List UInt8} (hzero : Numeral 0 bs) : Written [] bs
  | cons {v : Int} {c : Clause} {bs gap rest : List UInt8} (hv : Numeral v bs) (hne : v ≠ 0)
      (hle : v.natAbs ≤ 2147483647) (hgap : Gap gap) (hc : Written c rest) :
      Written (.ofInt v :: c) (bs ++ (gap ++ rest))

/-- Additions, deletions and comments with blanks around them. A comment ends with its line. -/
inductive Proof.Written (g : Grammar) : Proof → List UInt8 → Prop where
  | nil : Written g [] []
  | blank {b : UInt8} {p : Proof} {rest : List UInt8} (hb : isBlank b = true) (h : Written g p rest) :
      Written g p (b :: rest)
  | comment {line rest : List UInt8} {p : Proof} (hline : newline ∉ line) (h : Written g p rest) :
      Written g p (99 :: (line ++ newline :: rest))
  | lastComment {line : List UInt8} (hline : newline ∉ line) : Written g [] (99 :: line)
  | add {c : Clause} {p : Proof} {bs rest : List UInt8} (hc : c.Written bs) (hend : Ends rest)
      (h : Written g p rest) : Written g (.add c :: p) (bs ++ rest)
  | delete {c : Clause} {p : Proof} {gap bs rest : List UInt8} (hg : g = .proof) (hgap : Gap gap)
      (hc : c.Written bs) (hend : Ends rest) (h : Written g p rest) :
      Written g (.delete c :: p) (100 :: (gap ++ (bs ++ rest)))

/-- Blanks and comments, then `p cnf` and two numbers. -/
inductive Header.Written : Header → List UInt8 → Prop where
  | blank {b : UInt8} {header : Header} {rest : List UInt8} (hb : isBlank b = true)
      (h : Written header rest) : Written header (b :: rest)
  | comment {line rest : List UInt8} {header : Header} (hline : newline ∉ line)
      (h : Written header rest) : Written header (99 :: (line ++ newline :: rest))
  | counts {v n : Nat} {gap bs gap' cs : List UInt8} (hgap : Gap gap) (hv : Numeral v bs)
      (hgap' : Gap gap') (hn : Numeral n cs) (hvle : v ≤ 2147483647) (hnle : n ≤ 9223372036854775807) :
      Written ⟨v, n⟩ ([112, 32, 99, 110, 102] ++ (gap ++ (bs ++ (gap' ++ cs))))

/-- A header, then clauses and comments. -/
def Formula.Written (header : Header) (f : Formula) (bytes : List UInt8) : Prop :=
  ∃ start rest, bytes = start ++ rest ∧ header.Written start ∧ Ends rest ∧
    Proof.Written .clauses (f.map .add) rest

namespace Text

section

variable {c d : Cursor} {gap rest : List UInt8}

theorem head?_of_ends (h : Ends rest) : rest.head?.any (fun b => !isBlank b) = false := by
  cases rest with
  | nil => rfl
  | cons b rest =>
    have hb : isBlank b = true := h
    simp [hb]

theorem Ends.append {bytes : List UInt8} (h : Ends bytes) (hrest : Ends rest) :
    Ends (bytes ++ rest) := by
  cases bytes with
  | nil => exact hrest
  | cons b bytes => exact h

theorem Ends.of_append {bytes : List UInt8} (h : Ends (bytes ++ rest)) : Ends bytes := by
  cases bytes with
  | nil => trivial
  | cons b bytes => exact h

theorem Gap.ends (h : Gap gap) (rest : List UInt8) : Ends (gap ++ rest) := by
  obtain ⟨b, bs, rfl⟩ := List.exists_cons_of_ne_nil h.1
  exact h.2 b List.mem_cons_self

theorem Gap.skipBlank (h : Gap gap) (hrest : rest.head?.any isBlank = false) (p : Position) :
    Cursor.skipBlank ⟨gap ++ rest, p⟩ = ⟨rest, p.past gap⟩ :=
  Cursor.skipWhile_append h.2 hrest p

theorem skipSome_eq_ok_iff : skipSome c = .ok () d ↔ Ends c.rest ∧ d = c.skipBlank := by
  rw [skipSome, Cursor.peek?]
  rcases c.rest with _ | ⟨b, bs⟩
  · simp [Ends, eq_comm]
  · cases hb : isBlank b <;> simp [Ends, hb, eq_comm]

theorem Cursor.exists_blanks (c : Cursor) :
    ∃ gap, c.rest = gap ++ c.skipBlank.rest ∧ ∀ b ∈ gap, isBlank b = true :=
  ⟨c.rest.takeWhile isBlank, List.takeWhile_append_dropWhile.symm,
    List.all_eq_true.1 List.all_takeWhile⟩

/-- What may have blanks before it. -/
theorem Cursor.of_skipBlank {P : List UInt8 → Prop}
    (hblank : ∀ b bs, isBlank b = true → P bs → P (b :: bs)) (c : Cursor) (h : P c.skipBlank.rest) :
    P c.rest := by
  obtain ⟨gap, hsplit, hgap⟩ := c.exists_blanks
  rw [hsplit]
  clear hsplit
  induction gap with
  | nil => exact h
  | cons b gap ih =>
    obtain ⟨hb, hgap⟩ := List.forall_mem_cons.1 hgap
    exact hblank b _ hb (ih hgap)

/-- Where something follows, at least one blank was skipped. -/
theorem exists_gap_of_skipSome (hs : skipSome c = .ok () d) (hne : d.rest ≠ []) :
    d.skipBlank = d ∧ ∃ gap, c.rest = gap ++ d.rest ∧ Gap gap := by
  obtain ⟨hends, rfl⟩ := skipSome_eq_ok_iff.1 hs
  obtain ⟨gap, hsplit, hgap⟩ := c.exists_blanks
  refine ⟨c.skipBlank_skipBlank, gap, hsplit, ?_, hgap⟩
  rintro rfl
  -- the first byte behind the blanks would be one
  rcases hrest : c.skipBlank.rest with _ | ⟨b, bs⟩
  · exact hne hrest
  · rw [hsplit, hrest] at hends
    have hb : isBlank b = true := hends
    have hdrop : c.rest.dropWhile isBlank = b :: bs := hrest
    have hfirst := List.head?_dropWhile_not isBlank c.rest
    rw [hdrop] at hfirst
    cases hb.symm.trans hfirst

end

/-- A minus or a digit starts neither a comment nor a deletion. -/
theorem isBlank_of_starts {b : UInt8} (hb : (isDigit b || b == dash) = true) :
    isBlank b = false ∧ b ≠ 99 ∧ b ≠ 100 := by
  refine ⟨?_, ?_, ?_⟩
  · by_contra hblank
    rw [Bool.not_eq_false] at hblank
    rw [not_isDigit_of_isBlank hblank] at hb
    obtain rfl : b = dash := by simpa using hb
    cases hblank
  · rintro rfl
    cases hb
  · rintro rfl
    cases hb

theorem Numeral.head?_isBlank {v : Int} {bs : List UInt8} (h : Numeral v bs) (rest : List UInt8) :
    (bs ++ rest).head?.any isBlank = false := by
  obtain ⟨b, cs, rfl, hb⟩ := h.starts
  exact (isBlank_of_starts hb).1

end Text

namespace Clause

variable {c : Clause} {bs rest : List UInt8}

theorem Written.starts (h : c.Written bs) :
    ∃ b cs, bs = b :: cs ∧ (isDigit b || b == dash) = true := by
  cases h with
  | nil hzero => exact hzero.starts
  | cons hv =>
    obtain ⟨b, cs, rfl, hb⟩ := hv.starts
    exact ⟨b, _, rfl, hb⟩

theorem Written.head?_isBlank (h : c.Written bs) (rest : List UInt8) :
    (bs ++ rest).head?.any isBlank = false := by
  obtain ⟨b, cs, rfl, hb⟩ := h.starts
  exact (isBlank_of_starts hb).1

theorem Written.valid (h : c.Written bs) : ∀ l ∈ c, l.isValid = true := by
  induction h with
  | nil => simp
  | @cons v c bs gap rest hv hne hle hgap hc ih =>
    refine List.forall_mem_cons.2 ⟨Check.isValid_ofInt ?_, ih⟩
    simp [Check.denotesLiteral, hne, maxVariable, hle]

theorem read_eq (c : Cursor) :
    read c = if c.skipBlank.rest = [] then ([], .error (c.skipBlank.error .terminator) c.skipBlank)
      else match number32 c.skipBlank with
        | .error e d => ([], .error e d)
        | .ok v d => match skipSome d with
          | .error e d => ([], .error e d)
          | .ok () d => if v = 0 then ([], .ok () d) else (.ofInt v :: (read d).1, (read d).2) := by
  rw [read]
  split
  · rfl
  · split
    · rename_i hn
      rw [hn]
    · rename_i hn
      rw [hn]
      dsimp only
      split <;> rename_i hs <;> rw [hs]

theorem read_number {c d e : Cursor} {v : Int} (hne : c.skipBlank.rest ≠ [])
    (hn : number32 c.skipBlank = .ok v d) (hs : skipSome d = .ok () e) :
    read c = if v = 0 then ([], .ok () e) else (.ofInt v :: (read e).1, (read e).2) := by
  rw [read_eq, if_neg hne, hn]
  simp only [hs]

theorem Written.read (h : c.Written bs) (hend : Ends rest) (p : Position) :
    read ⟨bs ++ rest, p⟩ = (c, .ok () (Cursor.skipBlank ⟨rest, p.past bs⟩)) := by
  have hblank : ∀ {bs : List UInt8} {v : Int} (_ : Numeral v bs) (rest : List UInt8) (p : Position),
      Cursor.skipBlank ⟨bs ++ rest, p⟩ = ⟨bs ++ rest, p⟩ ∧ bs ++ rest ≠ [] := by
    intro bs v hv rest p
    refine ⟨Cursor.skipBlank_of_head (hv.head?_isBlank rest) p, ?_⟩
    obtain ⟨b, cs, rfl, _⟩ := hv.starts
    exact List.cons_ne_nil b _
  induction h generalizing p with
  | @nil bs hzero =>
    obtain ⟨hskip, hne⟩ := hblank hzero rest p
    have hn := hzero.number32 (by decide) (head?_any_isDigit (head?_of_ends hend)) p
    have hs := skipSome_of_head (head?_of_ends hend) (p.past bs)
    rw [read_number (by rwa [hskip]) (hskip.symm ▸ hn) hs, if_pos rfl]
  | @cons v c bs gap more hv hv0 hle hgap hc ih =>
    rw [List.append_assoc, List.append_assoc]
    obtain ⟨hskip, hne⟩ := hblank hv (gap ++ (more ++ rest)) p
    have hgapEnd := head?_of_ends (hgap.ends (more ++ rest))
    have hn := hv.number32 hle (head?_any_isDigit hgapEnd) p
    have hs := skipSome_of_head hgapEnd (p.past bs)
    rw [hgap.skipBlank (hc.head?_isBlank rest)] at hs
    rw [read_number (by rwa [hskip]) (hskip.symm ▸ hn) hs, if_neg hv0, ih, Position.past_append,
      Position.past_append]

/-- A clause behind a blank is behind a gap. -/
theorem Written.exists_gap {d e : Cursor} (h : c.Written bs) (hs : skipSome d = .ok () e)
    (hbytes : e.skipBlank.rest = bs ++ rest) : ∃ gap, d.rest = gap ++ (bs ++ rest) ∧ Gap gap := by
  have hne : e.rest ≠ [] := by
    intro hnil
    obtain ⟨b, cs, rfl, _⟩ := h.starts
    rw [Cursor.skipBlank, Cursor.skipWhile, hnil] at hbytes
    cases hbytes
  obtain ⟨hskip, gap, hsplit, hgap⟩ := exists_gap_of_skipSome hs hne
  rw [hskip] at hbytes
  exact ⟨gap, hbytes ▸ hsplit, hgap⟩

/-- A clause that is read to its end is written there. -/
theorem written_of_read {c d : Cursor} (h : (read c).2 = .ok () d) :
    ∃ bs rest q, c.skipBlank.rest = bs ++ rest ∧ (read c).1.Written bs ∧ Ends rest ∧
      d = Cursor.skipBlank ⟨rest, q⟩ := by
  fun_induction read c with
  | case1 | case2 | case3 => cases h
  | case4 c hne e d' hs hn =>
    obtain ⟨bs, hbytes, hnumeral, _⟩ := number32_eq_ok_iff.1 hn
    obtain ⟨hends, rfl⟩ := skipSome_eq_ok_iff.1 hs
    cases h
    exact ⟨bs, e.rest, e.position, hbytes, .nil hnumeral, hends, rfl⟩
  | case5 c hne v e hn d' hs hv literals ending hr ih =>
    rw [hr] at ih
    obtain ⟨more, rest, q, hmore, hwritten, hends, hd⟩ := ih h
    obtain ⟨bs, hbytes, hnumeral, hle, _⟩ := number32_eq_ok_iff.1 hn
    obtain ⟨gap, hsplit, hgap⟩ := hwritten.exists_gap hs hmore
    refine ⟨bs ++ (gap ++ more), rest, q, ?_, .cons hnumeral hv hle hgap hwritten, hends, hd⟩
    rw [hbytes, hsplit, List.append_assoc, List.append_assoc]

end Clause

namespace Listing

variable {g : Grammar} {x y : Listing} {c d e : Cursor} {b : UInt8} {bs : List UInt8}
  {literals : Clause} {p : Proof}

theorem read_eq (g : Grammar) (x : Listing) (c : Cursor) :
    read g x c = match c.skipBlank.rest with
      | [] => (x, none)
      | b :: _ =>
        if b = 99 then read g x c.skipBlank.skipLine
        else if b = 100 ∧ g = .proof then
          match skipSome c.skipBlank.next with
          | .error e _ => (x, some e)
          | .ok () d =>
            match Clause.read d with
            | (literals, .error e _) => (x.take literals false .delete, some e)
            | (literals, .ok () d) => read g (x.take literals true .delete) d
        else if isDigit b || b == dash then
          match Clause.read c.skipBlank with
          | (literals, .error e _) => (x.take literals false .add, some e)
          | (literals, .ok () d) => read g (x.take literals true .add) d
        else (x, some (c.skipBlank.error g.strayCause)) := by
  rw [read]
  split
  · rename_i hrest
    rw [hrest]
  · rename_i hrest
    rw [hrest]
    dsimp only
    split
    · rfl
    · split
      · split <;> rename_i hs <;> rw [hs]
        dsimp only
        split <;> rename_i hr <;> rw [hr]
      · split
        · split <;> rename_i hr <;> rw [hr]
        · rfl

theorem read_nil (h : c.skipBlank.rest = []) : read g x c = (x, none) := by
  rw [read_eq, h]

theorem read_comment (h : c.skipBlank.rest = 99 :: bs) : read g x c = read g x c.skipBlank.skipLine := by
  rw [read_eq, h]
  exact if_pos rfl

theorem read_add (h : c.skipBlank.rest = b :: bs) (hb : (isDigit b || b == dash) = true)
    (hr : Clause.read c.skipBlank = (literals, .ok () d)) :
    read g x c = read g (x.take literals true .add) d := by
  obtain ⟨_, hcomment, hdelete⟩ := isBlank_of_starts hb
  rw [read_eq, h]
  simp only [if_neg hcomment, if_neg (fun hd : b = 100 ∧ g = .proof => hdelete hd.1), if_pos hb, hr]

theorem read_delete (h : c.skipBlank.rest = 100 :: bs) (hs : skipSome c.skipBlank.next = .ok () d)
    (hr : Clause.read d = (literals, .ok () e)) :
    read .proof x c = read .proof (x.take literals true .delete) e := by
  have hcomment : ¬ (100 : UInt8) = 99 := by decide
  rw [read_eq, h]
  simp only [if_neg hcomment, and_self, if_true, hs, hr]

/-- Blanks before an item do not matter. -/
theorem read_congr (h : c.skipBlank = d.skipBlank) : read g x c = read g x d := by
  rw [read]
  conv_rhs => rw [read]
  rw [h]

/-- The listing with more steps. -/
def append (x : Listing) (p : Proof) : Listing := ⟨x.steps ++ p.toArray, max x.maxVar p.maxVar⟩

theorem append_nil (x : Listing) : x.append [] = x := by
  simp [append, Proof.maxVar, Formula.maxVar]

theorem append_cons (x : Listing) {step : Clause → Step} (hstep : (step literals).literals = literals)
    (p : Proof) : x.append (step literals :: p) = (x.take literals true step).append p := by
  have hmax : Proof.maxVar (step literals :: p) = max (Clause.maxVar literals) (Proof.maxVar p) :=
    congrArg (max · (Proof.maxVar p)) (congrArg Clause.maxVar hstep)
  rw [append, append, take, hmax, Nat.max_assoc]
  simp

end Listing

namespace Text

theorem skipLine_comment {line rest : List UInt8} (hline : newline ∉ line)
    (hrest : rest.head?.any (· != newline) = false) (p : Position) :
    Cursor.skipLine ⟨99 :: (line ++ rest), p⟩ = Cursor.next ⟨rest, p.past (99 :: line)⟩ := by
  have hall : ∀ b ∈ 99 :: line, (b != newline) = true := by
    intro b hb
    rcases List.mem_cons.1 hb with rfl | hb
    · rfl
    · exact bne_iff_ne.2 fun he => hline (he ▸ hb)
  rw [Cursor.skipLine, ← List.cons_append, Cursor.skipWhile_append hall hrest]

theorem skipLine_lastComment {line : List UInt8} (hline : newline ∉ line) (p : Position) :
    Cursor.skipLine ⟨99 :: line, p⟩ = ⟨[], p.past (99 :: line)⟩ := by
  have hend : ([] : List UInt8).head?.any (· != newline) = false := rfl
  have hskip := skipLine_comment hline hend p
  rwa [List.append_nil] at hskip

/-- A line ends at its first newline, or with the text. -/
theorem exists_line (bs : List UInt8) :
    (∃ line rest, bs = line ++ newline :: rest ∧ newline ∉ line) ∨ newline ∉ bs := by
  by_cases h : newline ∈ bs
  · exact .inl (List.eq_append_cons_of_mem h)
  · exact .inr h

end Text

namespace Proof

variable {g : Grammar} {p : Proof} {bytes gap : List UInt8}

theorem written_of_skipBlank {c : Cursor} (h : Written g p c.skipBlank.rest) : Written g p c.rest :=
  c.of_skipBlank (fun _ _ => .blank) h

theorem Written.valid (h : Written g p bytes) : p.Valid := by
  induction h with
  | nil | lastComment => exact fun step hstep => absurd hstep List.not_mem_nil
  | blank _ _ ih | comment _ _ ih => exact ih
  | add hc _ _ ih | delete _ _ hc _ _ ih => exact List.forall_mem_cons.2 ⟨hc.valid, ih⟩

end Proof

namespace Listing

variable {g : Grammar} {x y : Listing} {c : Cursor} {p : Proof} {bytes : List UInt8}

theorem read_line {line rest : List UInt8} (hline : newline ∉ line)
    (hrest : rest.head?.any (· != newline) = false) (x : Listing) (position : Position) :
    read g x ⟨99 :: (line ++ rest), position⟩ =
      read g x (Cursor.next ⟨rest, position.past (99 :: line)⟩) := by
  have hskip : Cursor.skipBlank ⟨99 :: (line ++ rest), position⟩ = ⟨_, position⟩ :=
    Cursor.skipBlank_of_head rfl position
  rw [read_comment (by rw [hskip]), hskip, skipLine_comment hline hrest]

theorem read_addition {c : Clause} {bs rest : List UInt8} (hc : c.Written bs) (hends : Ends rest)
    (x : Listing) (position : Position) :
    read g x ⟨bs ++ rest, position⟩ = read g (x.take c true .add) ⟨rest, position.past bs⟩ := by
  have hskip : Cursor.skipBlank ⟨bs ++ rest, position⟩ = ⟨bs ++ rest, position⟩ :=
    Cursor.skipBlank_of_head (hc.head?_isBlank rest) position
  have hclause := hc.read hends position
  obtain ⟨b, cs, rfl, hb⟩ := hc.starts
  rw [read_add (by rw [hskip]; rfl) hb (hskip.symm ▸ hclause),
    read_congr (Cursor.skipBlank_skipBlank _)]

theorem read_deletion {c : Clause} {gap bs rest : List UInt8} (hgap : Gap gap) (hc : c.Written bs)
    (hends : Ends rest) (x : Listing) (position : Position) :
    read .proof x ⟨100 :: (gap ++ (bs ++ rest)), position⟩ =
      read .proof (x.take c true .delete) ⟨rest, position.past (100 :: (gap ++ bs))⟩ := by
  have hskip : Cursor.skipBlank ⟨100 :: (gap ++ (bs ++ rest)), position⟩ = ⟨_, position⟩ :=
    Cursor.skipBlank_of_head rfl position
  have hs := skipSome_of_head (head?_of_ends (hgap.ends (bs ++ rest))) (position.after 100)
  rw [hgap.skipBlank (hc.head?_isBlank rest)] at hs
  rw [read_delete (by rw [hskip]) (by rw [hskip]; exact hs) (hc.read hends _),
    read_congr (Cursor.skipBlank_skipBlank _), ← Position.past_append]
  rfl

/-- What is written is read, whatever has been read before and whatever follows its last step. If
    a new line follows, then reading goes on there. -/
theorem read_written_append (h : Proof.Written g p bytes) {rest : List UInt8}
    (hends : p = [] ∨ Ends rest) (x : Listing) (position : Position) :
    ∃ d, read g x ⟨bytes ++ rest, position⟩ = read g (x.append p) d ∧
      (rest.head?.any (· != newline) = false →
        d.skipBlank = Cursor.skipBlank ⟨rest, position.past bytes⟩) := by
  induction h generalizing x position with
  | nil => exact ⟨⟨rest, position⟩, by rw [append_nil, List.nil_append], fun _ => rfl⟩
  | @blank b p more hb _ ih =>
    obtain ⟨d, hread, hseam⟩ := ih hends x (position.after b)
    exact ⟨d, by rw [List.cons_append, read_congr (Cursor.skipBlank_cons hb _ position), hread], hseam⟩
  | @comment line more p hline _ ih =>
    obtain ⟨d, hread, hseam⟩ := ih hends x ((position.past (99 :: line)).after newline)
    refine ⟨d, ?_, position.past_append (99 :: line) (newline :: more) ▸ hseam⟩
    rw [List.cons_append, List.append_assoc, read_line hline rfl]
    exact hread
  | @lastComment line hline =>
    -- the comment goes on behind its bytes, unless the line ends there
    by_cases hrest : rest.head?.any (· != newline) = false
    · refine ⟨_, by rw [List.cons_append, read_line hline hrest, append_nil], fun _ => ?_⟩
      cases rest with
      | nil => rfl
      | cons b rest =>
        obtain rfl : b = newline := by simpa using hrest
        exact (Cursor.skipBlank_cons rfl rest _).symm
    · exact ⟨_, by rw [append_nil], fun h => absurd h hrest⟩
  | @add c p bs more hc hend _ ih =>
    have hends : Ends rest := hends.resolve_left (List.cons_ne_nil _ _)
    obtain ⟨d, hread, hseam⟩ := ih (.inr hends) (x.take c true .add) (position.past bs)
    refine ⟨d, ?_, position.past_append bs more ▸ hseam⟩
    rw [List.append_assoc, read_addition hc (hend.append hends), hread, append_cons x rfl]
  | @delete c p gap bs more hg hgap hc hend _ ih =>
    subst hg
    have hends : Ends rest := hends.resolve_left (List.cons_ne_nil _ _)
    obtain ⟨d, hread, hseam⟩ :=
      ih (.inr hends) (x.take c true .delete) (position.past (100 :: (gap ++ bs)))
    have hpast := position.past_append (100 :: (gap ++ bs)) more
    rw [List.cons_append, List.append_assoc] at hpast
    refine ⟨d, ?_, hpast ▸ hseam⟩
    rw [List.cons_append, List.append_assoc, List.append_assoc,
      read_deletion hgap hc (hend.append hends), hread, append_cons x rfl]

theorem read_written (h : Proof.Written g p bytes) (x : Listing) (position : Position) :
    read g x ⟨bytes, position⟩ = (x.append p, none) := by
  have hends : Ends [] := trivial
  obtain ⟨d, hread, hseam⟩ := read_written_append h (.inr hends) x position
  rw [List.append_nil] at hread
  rw [hread, read_nil]
  rw [hseam rfl]
  rfl

/-- What is read to its end is written, and nothing else is added. -/
theorem written_of_read (h : (read g x c).2 = none) :
    ∃ p, Proof.Written g p c.rest ∧ (read g x c).1 = x.append p := by
  fun_induction read g x c with
  | case1 x c hnil => exact ⟨[], Proof.written_of_skipBlank (hnil ▸ .nil), x.append_nil.symm⟩
  | case2 x c bs hrest ih =>
    have hcursor : c.skipBlank = ⟨99 :: bs, c.skipBlank.position⟩ := by rw [← hrest]
    rcases exists_line bs with ⟨line, rest, rfl, hline⟩ | hline
    · obtain ⟨p, hp, hread⟩ := ih h
      rw [hcursor, skipLine_comment hline rfl] at hp
      exact ⟨p, Proof.written_of_skipBlank (hrest ▸ .comment hline hp), hread⟩
    · refine ⟨[], Proof.written_of_skipBlank (hrest ▸ .lastComment hline), ?_⟩
      rw [hcursor, skipLine_lastComment hline, read_nil rfl, append_nil]
  | case5 x c b bs hrest _ hb d hs literals e hr ih =>
    obtain ⟨rfl, rfl⟩ := hb
    obtain ⟨p, hp, hread⟩ := ih h
    obtain ⟨more, rest, q, hmore, hwritten, hends, rfl⟩ := Clause.written_of_read (congrArg Prod.snd hr)
    rw [hr] at hwritten
    obtain ⟨gap, hsplit, hgap⟩ := hwritten.exists_gap hs hmore
    have hnext : c.skipBlank.next.rest = bs := by rw [Cursor.next, hrest]
    refine ⟨.delete literals :: p, Proof.written_of_skipBlank ?_, hread.trans (x.append_cons rfl p).symm⟩
    rw [hrest, ← hnext, hsplit]
    exact .delete rfl hgap hwritten hends (Proof.written_of_skipBlank hp)
  | case7 x c b bs hrest _ _ hb literals d hr ih =>
    obtain ⟨p, hp, hread⟩ := ih h
    obtain ⟨more, rest, q, hmore, hwritten, hends, rfl⟩ := Clause.written_of_read (congrArg Prod.snd hr)
    rw [hr] at hwritten
    rw [Cursor.skipBlank_skipBlank] at hmore
    refine ⟨.add literals :: p, Proof.written_of_skipBlank ?_, hread.trans (x.append_cons rfl p).symm⟩
    rw [hmore]
    exact .add hwritten hends (Proof.written_of_skipBlank hp)
  | case3 | case4 | case6 | case8 => simp at h

end Listing

namespace Text

theorem bind_ok {α β : Type} {x : Reader α} {f : α → Reader β} {a : α} {c d : Cursor}
    (h : x c = .ok a d) : (x >>= f) c = f a d := by
  change EStateM.bind x f c = f a d
  rw [EStateM.bind, h]

theorem bind_eq_ok_iff {α β : Type} {x : Reader α} {f : α → Reader β} {b : β} {c d : Cursor} :
    (x >>= f) c = .ok b d ↔ ∃ a e, x c = .ok a e ∧ f a e = .ok b d := by
  change EStateM.bind x f c = .ok b d ↔ _
  rw [EStateM.bind]
  cases x c <;> simp

theorem expect_append (cause : Cause) (bs rest : List UInt8) (p : Position) :
    expect cause bs ⟨bs ++ rest, p⟩ = .ok () ⟨rest, p.past bs⟩ := by
  induction bs generalizing p with
  | nil => rfl
  | cons b bs ih =>
    have hpeek : Cursor.peek? ⟨b :: (bs ++ rest), p⟩ = some b := rfl
    rw [List.cons_append, expect, if_pos hpeek]
    exact ih (p.after b)

theorem rest_of_expect {cause : Cause} {bs : List UInt8} {c d : Cursor}
    (h : expect cause bs c = .ok () d) : c.rest = bs ++ d.rest := by
  induction bs generalizing c with
  | nil =>
    cases h
    rfl
  | cons b bs ih =>
    rw [expect] at h
    by_cases hpeek : c.peek? = some b
    · rw [if_pos hpeek] at h
      obtain ⟨rest, hrest⟩ := List.head?_eq_some_iff.1 hpeek
      have hbytes := ih h
      rw [Cursor.next, hrest] at hbytes
      rw [hrest]
      exact congrArg (b :: ·) hbytes
    · rw [if_neg hpeek] at h
      cases h

theorem skipComments_congr {c d : Cursor} (h : c.skipBlank = d.skipBlank) :
    skipComments c = skipComments d := by
  rw [skipComments]
  conv_rhs => rw [skipComments]
  simp only [h]

theorem skipComments_comment {line : List UInt8} (hline : newline ∉ line) (rest : List UInt8)
    (p : Position) :
    ∃ q, skipComments ⟨99 :: (line ++ newline :: rest), p⟩ = skipComments ⟨rest, q⟩ := by
  have hskip : Cursor.skipBlank ⟨99 :: (line ++ newline :: rest), p⟩ = ⟨_, p⟩ :=
    Cursor.skipBlank_of_head rfl p
  have hpeek : Cursor.peek? ⟨99 :: (line ++ newline :: rest), p⟩ = some 99 := rfl
  refine ⟨(p.past (99 :: line)).after newline, ?_⟩
  rw [skipComments, hskip, dif_pos hpeek, skipLine_comment hline rfl]
  rfl

theorem skipComments_of_head {b : UInt8} (hblank : isBlank b = false) (hb : b ≠ 99)
    (rest : List UInt8) (p : Position) : skipComments ⟨b :: rest, p⟩ = ⟨b :: rest, p⟩ := by
  have hhead : (b :: rest).head?.any isBlank = false := hblank
  have hskip := Cursor.skipBlank_of_head hhead p
  have hpeek : ¬ Cursor.peek? ⟨b :: rest, p⟩ = some 99 := fun h => hb (Option.some.inj h)
  rw [skipComments, hskip, dif_neg hpeek]

end Text

namespace Header

variable {header : Header} {start rest : List UInt8} {c d : Cursor}

theorem read_congr (h : skipComments c = skipComments d) : read c = read d := by
  have hc : (modify skipComments : Reader Unit) c = .ok () (skipComments c) := rfl
  have hd : (modify skipComments : Reader Unit) d = .ok () (skipComments c) := by
    rw [h]
    rfl
  rw [read, bind_ok hc, bind_ok hd]

theorem Written.read (h : header.Written start) (hend : Ends rest) (p : Position) :
    ∃ q, read ⟨start ++ rest, p⟩ = .ok header (Cursor.skipBlank ⟨rest, q⟩) := by
  induction h generalizing p with
  | blank hb _ ih =>
    rw [List.cons_append, read_congr (skipComments_congr (Cursor.skipBlank_cons hb _ p))]
    exact ih _
  | @comment line more header hline _ ih =>
    obtain ⟨q, hq⟩ := skipComments_comment hline (more ++ rest) p
    have hbytes : 99 :: (line ++ newline :: more) ++ rest =
        99 :: (line ++ newline :: (more ++ rest)) := by
      simp
    rw [hbytes, read_congr hq]
    exact ih q
  | @counts v n gap bs gap' cs hgap hv hgap' hn hvle hnle =>
    let numbers := gap ++ (bs ++ (gap' ++ (cs ++ rest)))
    have hbytes : [112, 32, 99, 110, 102] ++ (gap ++ (bs ++ (gap' ++ cs))) ++ rest =
        [112, 32, 99, 110, 102] ++ numbers := by simp [numbers]
    have hcomments : (modify skipComments : Reader Unit) ⟨[112, 32, 99, 110, 102] ++ numbers, p⟩ =
        .ok () ⟨[112, 32, 99, 110, 102] ++ numbers, p⟩ :=
      congrArg (EStateM.Result.ok ()) (skipComments_of_head rfl (by decide) _ p)
    have hs {v : Int} {bs gap : List UInt8} (hgap : Gap gap) (hv : Numeral v bs) (rest : List UInt8)
        (p : Position) : skipSome ⟨gap ++ (bs ++ rest), p⟩ = .ok () ⟨bs ++ rest, p.past gap⟩ := by
      rw [skipSome_of_head (head?_of_ends (hgap.ends _)), hgap.skipBlank (hv.head?_isBlank rest)]
    have hvend := head?_any_isDigit (head?_of_ends (hgap'.ends (cs ++ rest)))
    have hnend := head?_any_isDigit (head?_of_ends hend)
    have hsigns : ¬ ((v : Int) < 0 ∨ (n : Int) < 0) := by omega
    refine ⟨(((((p.past [112, 32, 99, 110, 102]).past gap).past bs).past gap').past cs), ?_⟩
    rw [hbytes, Header.read, bind_ok hcomments, bind_ok (expect_append _ _ _ p),
      bind_ok (hs hgap hv _ _), bind_ok (hv.number32 hvle hvend _), bind_ok (hs hgap' hn _ _), bind_ok (hn.number64 hnle hnend _),
      if_neg hsigns]
    exact bind_ok (skipSome_of_head (head?_of_ends hend) _)

theorem Written.ne_nil (h : header.Written start) : start ≠ [] := by
  cases h <;> simp

/-- Comments and blanks before a header belong to it. -/
theorem written_of_skipComments (hbytes : (skipComments c).rest = start ++ rest)
    (h : header.Written start) : ∃ start', c.rest = start' ++ rest ∧ header.Written start' := by
  have hblank : ∀ b bs, isBlank b = true → (∃ start, bs = start ++ rest ∧ header.Written start) →
      ∃ start, b :: bs = start ++ rest ∧ header.Written start := by
    rintro b _ hb ⟨start, rfl, h⟩
    exact ⟨b :: start, rfl, .blank hb h⟩
  fun_induction skipComments c with
  | case2 c => exact c.of_skipBlank hblank ⟨start, hbytes, h⟩
  | case1 c hpeek ih =>
    obtain ⟨more, hmore, h'⟩ := ih hbytes
    obtain ⟨bs, hrest⟩ := List.head?_eq_some_iff.1 hpeek
    have hcursor : c.skipBlank = ⟨99 :: bs, c.skipBlank.position⟩ := by rw [← hrest]
    refine c.of_skipBlank hblank ?_
    rcases exists_line bs with ⟨line, _, rfl, hline⟩ | hline
    · rw [hcursor, skipLine_comment hline rfl] at hmore
      obtain rfl : _ = more ++ rest := hmore
      refine ⟨99 :: (line ++ newline :: more), ?_, .comment hline h'⟩
      rw [hrest]
      simp
    · rw [hcursor, skipLine_lastComment hline] at hmore
      exact absurd (List.append_eq_nil_iff.1 hmore.symm).1 h'.ne_nil

theorem written_of_read (h : read c = .ok header d) :
    ∃ start rest q, c.rest = start ++ rest ∧ header.Written start ∧ Ends rest ∧
      d = Cursor.skipBlank ⟨rest, q⟩ := by
  simp only [read, bind_eq_ok_iff] at h
  obtain ⟨_, _, hcomments, _, e₁, hmark, _, e₂, hs₁, v, e₃, hv, _, e₄, hs₂, n, e₅, hn, h⟩ := h
  cases hcomments
  by_cases hsigns : v < 0 ∨ n < 0
  · rw [if_pos hsigns] at h
    cases h
  rw [if_neg hsigns] at h
  obtain ⟨_, e₆, hs₃, h⟩ := bind_eq_ok_iff.1 h
  cases h
  have hmark := rest_of_expect hmark
  obtain ⟨bs, hbs, hv, hvle, _⟩ := number32_eq_ok_iff.1 hv
  obtain ⟨cs, hcs, hn, hnle, _⟩ := number64_eq_ok_iff.1 hn
  have hne {v : Int} {bs : List UInt8} {d e : Cursor} (hv : Numeral v bs) (h : d.rest = bs ++ e.rest) :
      d.rest ≠ [] := by
    obtain ⟨b, cs, rfl, _⟩ := hv.starts
    simp [h]
  obtain ⟨_, gap, hsplit, hgap⟩ := exists_gap_of_skipSome hs₁ (hne hv hbs)
  obtain ⟨_, gap', hsplit', hgap'⟩ := exists_gap_of_skipSome hs₂ (hne hn hcs)
  obtain ⟨hends, rfl⟩ := skipSome_eq_ok_iff.1 hs₃
  obtain ⟨v, rfl⟩ := Int.eq_ofNat_of_zero_le (show 0 ≤ v by omega)
  obtain ⟨n, rfl⟩ := Int.eq_ofNat_of_zero_le (show 0 ≤ n by omega)
  have hwritten : Written ⟨v, n⟩ _ := .counts hgap hv hgap' hn hvle hnle
  have hbytes : (skipComments c).rest =
      [112, 32, 99, 110, 102] ++ (gap ++ (bs ++ (gap' ++ cs))) ++ e₅.rest := by
    rw [hmark, hsplit, hbs, hsplit', hcs]
    simp
  obtain ⟨start, hstart, hwritten⟩ := written_of_skipComments hbytes hwritten
  exact ⟨start, e₅.rest, e₅.position, hstart, hwritten, hends, rfl⟩

end Header

/-- A list of clauses has no deletions. -/
theorem Proof.Written.exists_formula {p : Proof} {bytes : List UInt8} (h : Written .clauses p bytes) :
    ∃ f : Formula, p = f.map .add := by
  induction h with
  | nil | lastComment => exact ⟨[], rfl⟩
  | blank _ _ ih | comment _ _ ih => exact ih
  | @add c _ _ _ _ _ _ ih =>
    obtain ⟨f, rfl⟩ := ih
    exact ⟨c :: f, rfl⟩
  | delete hg => cases hg

theorem Formula.Written.valid {header : Header} {f : Formula} {bytes : List UInt8}
    (h : Written header f bytes) : f.Valid := by
  obtain ⟨_, _, _, _, _, hf⟩ := h
  exact fun c hc => hf.valid (.add c) (List.mem_map_of_mem hc)

namespace Problem

variable {q r : Problem} {bytes : List UInt8}

/-- A proof is read if one is written, and is added to what is there. -/
theorem readProof_eq_iff : q.readProof bytes = (r, none) ↔ ∃ p, Proof.Written .proof p bytes ∧
    r = { q with maxVar := max q.maxVar p.maxVar, proof := q.proof ++ p } := by
  constructor
  · intro h
    obtain ⟨rfl, hnone⟩ := Prod.mk.inj h
    obtain ⟨p, hp, hread⟩ := Listing.written_of_read hnone
    refine ⟨p, hp, ?_⟩
    simp [hread, Listing.append]
  · rintro ⟨p, hp, rfl⟩
    rw [readProof, Cursor.ofBytes, Listing.read_written hp]
    simp [Listing.append]

/-- A formula is read if one is written, and is added to what is there. -/
theorem readFormula_eq_iff : q.readFormula bytes = (r, none) ↔
    ∃ header f, Formula.Written header f bytes ∧ r = { q with
      header := some header
      maxVar := max q.maxVar f.maxVar
      formula := q.formula ++ f } := by
  have hliterals (f : Formula) : (f.map Step.add).map Step.literals = f := by
    rw [List.map_map]
    exact List.map_id f
  constructor
  · intro h
    rw [readFormula] at h
    cases hheader : Header.read (.ofBytes bytes) with
    | error e d => simp [hheader] at h
    | ok header d =>
      rw [hheader] at h
      obtain ⟨rfl, hnone⟩ := Prod.mk.inj h
      obtain ⟨start, rest, position, hbytes, hwritten, hends, rfl⟩ := Header.written_of_read hheader
      obtain ⟨p, hp, hread⟩ := Listing.written_of_read hnone
      obtain ⟨f, rfl⟩ := hp.exists_formula
      refine ⟨header, f, ⟨start, rest, hbytes, hwritten, hends, Proof.written_of_skipBlank hp⟩, ?_⟩
      simp [hread, Listing.append, Proof.maxVar, hliterals]
  · rintro ⟨header, f, ⟨start, rest, rfl, hwritten, hends, hf⟩, rfl⟩
    obtain ⟨position, hheader⟩ := hwritten.read hends ⟨1, 1⟩
    rw [readFormula, Cursor.ofBytes, hheader]
    dsimp only
    rw [Listing.read_congr (Cursor.skipBlank_skipBlank _), Listing.read_written hf]
    simp [Listing.append, Proof.maxVar, hliterals]

end Problem
end ClausalProof
