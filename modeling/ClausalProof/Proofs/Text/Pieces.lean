import ClausalProof.Proofs.Text.Grammar
import ClausalProof.Proofs.Text.Word

set_option autoImplicit false

/-!
Reading a proof in pieces. A text that can be read to its end may be cut off there: what follows in a
new line is read as it would be on its own, and only the lines of its errors are counted from the
start. Where reading fails, the steps that were complete stay, and no others are added.
-/
namespace ClausalProof

open Text

namespace Text

variable (k : Nat)

/-- The same place, if `k` more lines are above it. -/
def Position.down (p : Position) : Position := ⟨p.line + k, p.column⟩

def TextError.down (e : TextError) : TextError := ⟨e.cause, e.position.down k⟩

def Cursor.down (c : Cursor) : Cursor := ⟨c.rest, c.position.down k⟩

def downOutcome {α : Type} :
    EStateM.Result TextError Cursor α → EStateM.Result TextError Cursor α
  | .ok a c => .ok a (c.down k)
  | .error e c => .error (e.down k) (c.down k)

theorem Position.after_down (p : Position) (b : UInt8) : (p.down k).after b = (p.after b).down k := by
  simp only [after, down]
  split
  · rw [Nat.add_right_comm]
  · rfl

theorem Position.past_down (p : Position) (bs : List UInt8) :
    (p.down k).past bs = (p.past bs).down k := by
  induction bs generalizing p with
  | nil => rfl
  | cons b bs ih =>
    change ((p.down k).after b).past bs = _
    rw [after_down, ih]
    rfl

theorem Position.past_line (p : Position) (bs : List UInt8) :
    (p.past bs).line = p.line + bs.count newline := by
  induction bs generalizing p with
  | nil => rfl
  | cons b bs ih =>
    change ((p.after b).past bs).line = _
    rw [ih, after]
    by_cases hb : b = newline
    · rw [if_pos hb, hb, List.count_cons_self, Nat.add_right_comm, Nat.add_assoc]
    · rw [if_neg hb, List.count_cons_of_ne hb]

namespace Cursor

variable (c : Cursor)

theorem rest_down : (c.down k).rest = c.rest := rfl

theorem skipWhile_down (q : UInt8 → Bool) : (c.down k).skipWhile q = (c.skipWhile q).down k :=
  congrArg (Cursor.mk _) (c.position.past_down k _)

theorem skipBlank_down : (c.down k).skipBlank = c.skipBlank.down k := c.skipWhile_down k isBlank

theorem next_down : (c.down k).next = c.next.down k := by
  rcases c with ⟨_ | ⟨b, rest⟩, p⟩
  · rfl
  · exact congrArg (Cursor.mk rest) (p.after_down k b)

theorem skipLine_down : (c.down k).skipLine = c.skipLine.down k := by
  rw [skipLine, skipWhile_down, next_down]
  rfl

end Cursor

theorem digitsFrom_down (v : Nat) (p : Position) (bs : List UInt8) :
    digitsFrom v (p.down k) bs = downOutcome k (digitsFrom v p bs) := by
  induction bs generalizing v p with
  | nil => rfl
  | cons b bs ih =>
    rw [digitsFrom, digitsFrom]
    split
    · dsimp only
      split
      · rw [p.after_down, ih]
      · rfl
    · rfl

theorem natural_down (c : Cursor) : natural (c.down k) = downOutcome k (natural c) := by
  rw [natural, natural]
  change (if c.peek?.any isDigit then _ else _) = _
  split
  · exact digitsFrom_down k 0 c.position c.rest
  · rfl

theorem number64_down (c : Cursor) : number64 (c.down k) = downOutcome k (number64 c) := by
  rw [number64, number64, c.next_down, natural_down, natural_down]
  change (if c.peek? = some dash then _ else _) = _
  split
  · cases natural c.next <;> rfl
  · cases natural c <;> rfl

theorem number32_down (c : Cursor) : number32 (c.down k) = downOutcome k (number32 c) := by
  rw [number32, number32, number64_down]
  cases number64 c with
  | error e d => rfl
  | ok v d =>
    simp only [downOutcome]
    split <;> rfl

theorem skipSome_down (c : Cursor) : skipSome (c.down k) = downOutcome k (skipSome c) := by
  rw [skipSome, skipSome, c.skipBlank_down]
  change (if c.peek?.any _ then _ else _) = _
  split <;> rfl

end Text

/-- The literals of a clause do not depend on where it stands. -/
theorem Clause.read_down (k : Nat) (c : Cursor) :
    read (c.down k) = ((read c).1, downOutcome k (read c).2) := by
  fun_induction read c with
  | case1 c hnil =>
    rw [read_eq, c.skipBlank_down]
    exact if_pos hnil
  | case2 c hne e d hn =>
    rw [read_eq, c.skipBlank_down, number32_down, hn]
    exact if_neg hne
  | case3 c hne v d hn e d' hs =>
    rw [read_eq, c.skipBlank_down, number32_down, hn]
    simp only [downOutcome, skipSome_down, hs]
    exact if_neg hne
  | case4 c hne d e hs hn =>
    rw [read_eq, c.skipBlank_down, number32_down, hn]
    simp only [downOutcome, skipSome_down, hs]
    exact if_neg hne
  | case5 c hne v d hn e hs hv literals ending hr ih =>
    rw [hr] at ih
    rw [read_eq, c.skipBlank_down, number32_down, hn]
    simp only [downOutcome, skipSome_down, hs, if_neg hv, ih]
    exact if_neg hne

namespace Listing

variable {g : Grammar} {x : Listing} {c : Cursor} {p : Proof}

/-- The listing behind other steps. -/
def behind (steps : Array Step) (x : Listing) : Listing := ⟨steps ++ x.steps, x.maxVar⟩

theorem take_behind (steps : Array Step) (x : Listing) (literals : Clause) (complete : Bool)
    (step : Clause → Step) :
    (x.behind steps).take literals complete step = (x.take literals complete step).behind steps := by
  cases complete with
  | false => rfl
  | true => simp [take, behind]

/-- Reading does not look at what was read before, nor at the lines above. -/
theorem read_behind (steps : Array Step) (k : Nat) (x : Listing) (c : Cursor) :
    read g (x.behind steps) (c.down k) =
      ((read g x c).1.behind steps, (read g x c).2.map (TextError.down k)) := by
  fun_induction read g x c with
  | case1 x c hnil => exact read_nil (by rw [c.skipBlank_down]; exact hnil)
  | case2 x c bs hrest ih =>
    rw [read_comment (by rw [c.skipBlank_down]; exact hrest), c.skipBlank_down, Cursor.skipLine_down]
    exact ih
  | case3 x c b bs hrest hcomment hb e d hs =>
    rw [read_eq, c.skipBlank_down, Cursor.rest_down, hrest, Cursor.next_down, skipSome_down, hs]
    simp only [if_neg hcomment, if_pos hb, downOutcome, Option.map_some]
  | case4 x c b bs hrest hcomment hb d hs literals e d' hr =>
    rw [read_eq, c.skipBlank_down, Cursor.rest_down, hrest, Cursor.next_down, skipSome_down, hs]
    simp only [if_neg hcomment, if_pos hb, downOutcome, Clause.read_down, hr, take_behind,
      Option.map_some]
  | case5 x c b bs hrest hcomment hb d hs literals e hr ih =>
    rw [read_eq, c.skipBlank_down, Cursor.rest_down, hrest, Cursor.next_down, skipSome_down, hs]
    simp only [if_neg hcomment, if_pos hb, downOutcome, Clause.read_down, hr, take_behind, ih]
  | case6 x c b bs hrest hcomment hdelete hb literals e d hr =>
    rw [read_eq, c.skipBlank_down, Cursor.rest_down, hrest, Clause.read_down, hr]
    simp only [if_neg hcomment, if_neg hdelete, if_pos hb, downOutcome, take_behind, Option.map_some]
  | case7 x c b bs hrest hcomment hdelete hb literals d hr ih =>
    rw [read_eq, c.skipBlank_down, Cursor.rest_down, hrest, Clause.read_down, hr]
    simp only [if_neg hcomment, if_neg hdelete, if_pos hb, downOutcome, take_behind, ih]
  | case8 x c b bs hrest hcomment hdelete hb =>
    rw [read_eq, c.skipBlank_down, Cursor.rest_down, hrest]
    simp only [if_neg hcomment, if_neg hdelete, if_neg hb, Option.map_some]
    rfl

/-- The steps that were there before stay in front. -/
theorem read_steps (g : Grammar) (x : Listing) (c : Cursor) :
    (read g x c).1.steps = x.steps ++ (read g ⟨#[], x.maxVar⟩ c).1.steps := by
  have hx : x = behind x.steps ⟨#[], x.maxVar⟩ := by
    rw [behind, Array.append_empty]
  have hread := read_behind (g := g) x.steps 0 ⟨#[], x.maxVar⟩ c
  rw [← hx] at hread
  exact congrArg (fun r => r.1.steps) hread

/-- Behind a text that can be read, the next line is read as if it were the first. -/
theorem read_next_line {bytes : List UInt8} (h : Proof.Written g p bytes) (rest : List UInt8) (m : Nat) :
    read g ⟨#[], m⟩ (.ofBytes (bytes ++ newline :: rest)) =
      ((read g ⟨#[], max m p.maxVar⟩ (.ofBytes rest)).1.behind p.toArray,
        (read g ⟨#[], max m p.maxVar⟩ (.ofBytes rest)).2.map
          (TextError.down (1 + bytes.count newline))) := by
  have hends : Ends (newline :: rest) := rfl
  obtain ⟨d, hread, hseam⟩ := read_written_append h (.inr hends) ⟨#[], m⟩ ⟨1, 1⟩
  have hline := (hseam rfl).trans (Cursor.skipBlank_cons rfl rest _)
  have hfirst : (Position.past ⟨1, 1⟩ bytes).after newline =
      Position.down (1 + bytes.count newline) ⟨1, 1⟩ := by
    rw [Position.after, if_pos rfl, Position.past_line, Position.down, Nat.add_assoc,
      Nat.add_comm 1 (bytes.count newline)]
  have hsteps : append ⟨#[], m⟩ p = behind p.toArray ⟨#[], max m p.maxVar⟩ := by
    rw [append, behind, Array.empty_append, Array.append_empty]
  rw [Cursor.ofBytes, hread, read_congr hline, hfirst, hsteps, ← read_behind]
  rfl

end Listing

namespace Text

/-- Reading the bytes leads from one cursor to the other. -/
structure Cursor.Passes (c : Cursor) (bs : List UInt8) (d : Cursor) : Prop where
  rest : c.rest = bs ++ d.rest
  position : d.position = c.position.past bs

namespace Cursor

variable {c d e : Cursor} {b : UInt8} {bs cs : List UInt8}

theorem Passes.refl (c : Cursor) : c.Passes [] c := ⟨rfl, rfl⟩

theorem Passes.trans (h : c.Passes bs d) (k : d.Passes cs e) : c.Passes (bs ++ cs) e where
  rest := by rw [h.rest, k.rest, List.append_assoc]
  position := by rw [k.position, h.position, Position.past_append]

theorem passes_skipBlank (c : Cursor) : c.Passes (c.rest.takeWhile isBlank) c.skipBlank :=
  ⟨List.takeWhile_append_dropWhile.symm, rfl⟩

theorem passes_next (h : c.rest = b :: bs) : c.Passes [b] c.next := by
  rw [next, h]
  exact ⟨h, rfl⟩

end Cursor

theorem passes_skipLine {line rest : List UInt8} (hline : newline ∉ line) (p : Position) :
    Cursor.Passes ⟨99 :: (line ++ newline :: rest), p⟩ (99 :: (line ++ [newline]))
      (Cursor.skipLine ⟨99 :: (line ++ newline :: rest), p⟩) := by
  rw [skipLine_comment hline rfl]
  exact ⟨by simp [Cursor.next], (p.past_append (99 :: line) [newline]).symm⟩

/-- The error is reported at a place that was read up to. -/
def Fails (c : Cursor) (e : TextError) : Prop := ∃ bs d, c.Passes bs d ∧ e.position = d.position

theorem Fails.after {c d : Cursor} {bs : List UInt8} {e : TextError} (h : Fails d e)
    (hd : c.Passes bs d) : Fails c e := by
  obtain ⟨cs, d', hd', he⟩ := h
  exact ⟨bs ++ cs, d', hd.trans hd', he⟩

theorem fails_here (c : Cursor) (cause : Cause) : Fails c (c.error cause) := ⟨[], c, .refl c, rfl⟩

theorem fails_of_skipSome {c d : Cursor} {e : TextError} (h : skipSome c = .error e d) : Fails c e := by
  rw [skipSome] at h
  split at h
  · cases h
    exact fails_here c .space
  · cases h

theorem passes_of_skipSome {c d : Cursor} (h : skipSome c = .ok () d) (hne : d.rest ≠ []) :
    ∃ gap, c.Passes gap d ∧ Gap gap := by
  obtain ⟨_, gap, hrest, hgap⟩ := exists_gap_of_skipSome h hne
  obtain ⟨_, rfl⟩ := skipSome_eq_ok_iff.1 h
  have hblanks := c.passes_skipBlank
  obtain rfl : gap = _ := List.append_cancel_right (hrest.symm.trans hblanks.rest)
  exact ⟨_, hblanks, hgap⟩

theorem passes_of_number32 {c d : Cursor} {v : Int} (h : number32 c = .ok v d) :
    ∃ bs, c.Passes bs d := by
  obtain ⟨bs, hrest, _, _, hposition, _⟩ := number32_eq_ok_iff.1 h
  exact ⟨bs, hrest, hposition⟩

theorem fails_of_number64 {c d : Cursor} {e : TextError} (h : number64 c = .error e d) : Fails c e := by
  have hsplit := sign_append_unsigned c.rest
  rcases number64_eq_error h with ⟨_, rfl, rfl⟩ | ⟨_, rfl, fits, left, _, hrun, rfl⟩
  · exact ⟨sign c.rest, ⟨unsigned c.rest, _⟩, ⟨hsplit.symm, rfl⟩, rfl⟩
  · refine ⟨sign c.rest ++ fits, ⟨left ++ behindRun c.rest, _⟩, ⟨?_, rfl⟩, rfl⟩
    rw [List.append_assoc, ← List.append_assoc fits, ← hrun, digitRun_append_behindRun, hsplit]

theorem fails_of_number32 {c d : Cursor} {e : TextError} (h : number32 c = .error e d) : Fails c e := by
  rcases number32_eq_error h with hwide | ⟨v, hwide, _, rfl⟩
  · exact fails_of_number64 hwide
  · obtain ⟨bs, hrest, _, _, hposition, _⟩ := number64_eq_ok_iff.1 hwide
    exact ⟨bs, d, ⟨hrest, hposition⟩, rfl⟩

end Text

namespace Clause

theorem fails_of_read {c d : Cursor} {e : TextError} (h : (read c).2 = .error e d) : Fails c e := by
  fun_induction read c with
  | case1 c _ =>
    cases h
    exact (fails_here c.skipBlank .terminator).after c.passes_skipBlank
  | case2 c _ e' d' hn =>
    cases h
    exact (fails_of_number32 hn).after c.passes_skipBlank
  | case3 c _ v d' hn e' u hs =>
    cases h
    obtain ⟨bs, hd⟩ := passes_of_number32 hn
    exact ((fails_of_skipSome hs).after hd).after c.passes_skipBlank
  | case4 => cases h
  | case5 c _ v d' hn u hs _ _ _ hr ih =>
    rw [hr] at ih
    obtain ⟨bs, hd⟩ := passes_of_number32 hn
    obtain ⟨_, rfl⟩ := skipSome_eq_ok_iff.1 hs
    exact (((ih h).after d'.passes_skipBlank).after hd).after c.passes_skipBlank

/-- A complete clause is written where it is read, with the blanks behind it. -/
theorem exists_written_of_read {c d : Cursor} {literals : Clause} (hskip : c.skipBlank = c)
    (h : read c = (literals, .ok () d)) :
    ∃ bs gap, c.Passes (bs ++ gap) d ∧ literals.Written bs ∧ (∀ b ∈ gap, isBlank b = true) ∧
      Ends (gap ++ d.rest) := by
  obtain ⟨bs, rest, q, hrest, hwritten, hends, _⟩ := written_of_read (congrArg Prod.snd h)
  rw [h] at hwritten
  rw [hskip] at hrest
  have hcursor : c = ⟨bs ++ rest, c.position⟩ := by rw [← hrest]
  have hread := hwritten.read hends c.position
  rw [← hcursor, h] at hread
  obtain rfl : d = _ := (EStateM.Result.ok.inj (congrArg Prod.snd hread)).2
  have hbehind := Cursor.passes_skipBlank ⟨rest, c.position.past bs⟩
  refine ⟨bs, rest.takeWhile isBlank, Cursor.Passes.trans ⟨hrest, rfl⟩ hbehind, hwritten,
    List.all_eq_true.1 List.all_takeWhile, ?_⟩
  rw [← hbehind.rest]
  exact hends

end Clause

namespace Proof

variable {g : Grammar} {p : Proof} {s : Step} {front rest gap : List UInt8}

/-- Of a text that goes on with `rest`, the bytes `front` start with these steps, and the steps are
    complete: behind the last of them is a blank, or nothing. -/
def Leads (g : Grammar) (p : Proof) (front rest : List UInt8) : Prop :=
  ∃ older broken, front = older ++ broken ∧ Written g p older ∧ (p = [] ∨ Ends (broken ++ rest))

theorem leads_nil (g : Grammar) (front rest : List UInt8) : Leads g [] front rest :=
  ⟨[], front, rfl, .nil, .inl rfl⟩

theorem Leads.blanks (h : Leads g p front rest) (hgap : ∀ b ∈ gap, isBlank b = true) :
    Leads g p (gap ++ front) rest := by
  induction gap with
  | nil => exact h
  | cons b gap ih =>
    obtain ⟨hb, hgap⟩ := List.forall_mem_cons.1 hgap
    obtain ⟨older, broken, hsplit, hwritten, hends⟩ := ih hgap
    exact ⟨b :: older, broken, congrArg (b :: ·) hsplit, .blank hb hwritten, hends⟩

theorem Leads.comment {line : List UInt8} (h : Leads g p front rest) (hline : newline ∉ line) :
    Leads g p (99 :: (line ++ newline :: front)) rest := by
  obtain ⟨older, broken, rfl, hwritten, hends⟩ := h
  exact ⟨_, broken, by simp, .comment hline hwritten, hends⟩

/-- One more step before the others. -/
theorem Leads.step {item : List UInt8} (h : Leads g p front rest)
    (hitem : ∀ p more, Ends more → Written g p more → Written g (s :: p) (item ++ more))
    (hends : Ends (front ++ rest)) : Leads g (s :: p) (item ++ front) rest := by
  obtain ⟨older, broken, rfl, hwritten, rfl | hbroken⟩ := h
  · -- nothing but this step is complete, so its bytes end with it
    exact ⟨item ++ [], older ++ broken, by simp, hitem [] [] trivial .nil, .inr hends⟩
  · rw [List.append_assoc] at hends
    exact ⟨item ++ older, broken, (List.append_assoc _ _ _).symm, hitem p older hends.of_append hwritten,
      .inr hbroken⟩

/-- Reading from `c` stops where `e` says, behind these complete steps. -/
def Stops (g : Grammar) (p : Proof) (c : Cursor) (e : TextError) : Prop :=
  ∃ front d, c.Passes front d ∧ e.position = d.position ∧ Leads g p front d.rest

theorem stops_of_fails {c : Cursor} {e : TextError} (h : Fails c e) : Stops g [] c e := by
  obtain ⟨front, d, hd, he⟩ := h
  exact ⟨front, d, hd, he, leads_nil g front d.rest⟩

section

variable {c d : Cursor} {e : TextError}

theorem Stops.of_skipBlank (h : Stops g p c.skipBlank e) : Stops g p c e := by
  obtain ⟨front, d, hd, he, hleads⟩ := h
  exact ⟨_, d, c.passes_skipBlank.trans hd, he,
    hleads.blanks (List.all_eq_true.1 List.all_takeWhile)⟩

theorem Stops.comment {line : List UInt8} (h : Stops g p d e) (hline : newline ∉ line)
    (hd : c.Passes (99 :: (line ++ [newline])) d) : Stops g p c e := by
  obtain ⟨front, u, hu, he, hleads⟩ := h
  refine ⟨_, u, hd.trans hu, he, ?_⟩
  rw [List.cons_append, List.append_assoc]
  exact hleads.comment hline

theorem Stops.step {item : List UInt8} (h : Stops g p d e) (hd : c.Passes (item ++ gap) d)
    (hitem : ∀ p more, Ends more → Written g p more → Written g (s :: p) (item ++ more))
    (hgap : ∀ b ∈ gap, isBlank b = true) (hends : Ends (gap ++ d.rest)) : Stops g (s :: p) c e := by
  obtain ⟨front, u, hu, he, hleads⟩ := h
  refine ⟨_, u, hd.trans hu, he, ?_⟩
  rw [List.append_assoc]
  refine (hleads.blanks hgap).step hitem ?_
  rw [List.append_assoc, ← hu.rest]
  exact hends

end

end Proof

namespace Listing

variable {g : Grammar} {x : Listing} {c : Cursor} {p : Proof}

/-- Where reading fails, the complete steps before the error have been added, and no others. -/
theorem stops_of_read {e : TextError} (h : (read g x c).2 = some e) :
    ∃ p, Proof.Stops g p c e ∧ (read g x c).1.steps = x.steps ++ p.toArray := by
  fun_induction read g x c with
  | case1 => cases h
  | case2 x c bs hrest ih =>
    have hcursor : c.skipBlank = ⟨99 :: bs, c.skipBlank.position⟩ := by rw [← hrest]
    rcases exists_line bs with ⟨line, rest, rfl, hline⟩ | hline
    · obtain ⟨p, hstops, hsteps⟩ := ih h
      rw [hcursor] at hstops
      refine ⟨p, Proof.Stops.of_skipBlank ?_, hsteps⟩
      rw [hcursor]
      exact hstops.comment hline (passes_skipLine hline _)
    · -- the text ends with the comment, so there is nothing to fail on
      rw [hcursor, skipLine_lastComment hline, read_nil rfl] at h
      cases h
  | case3 x c b bs hrest hcomment hb e' d hs =>
    cases h
    have hfails := ((fails_of_skipSome hs).after (Cursor.passes_next hrest)).after c.passes_skipBlank
    exact ⟨[], Proof.stops_of_fails hfails, by simp⟩
  | case4 x c b bs hrest hcomment hb d hs literals e' d' hr =>
    cases h
    obtain ⟨_, rfl⟩ := skipSome_eq_ok_iff.1 hs
    have hfails := Clause.fails_of_read (congrArg Prod.snd hr)
    have hfails := ((hfails.after (Cursor.passes_skipBlank _)).after (Cursor.passes_next hrest)).after
      c.passes_skipBlank
    exact ⟨[], Proof.stops_of_fails hfails, by simp [take]⟩
  | case5 x c b bs hrest hcomment hb d hs literals u hr ih =>
    obtain ⟨rfl, rfl⟩ := hb
    obtain ⟨p, hstops, hsteps⟩ := ih h
    have hskip : d.skipBlank = d := by
      obtain ⟨_, rfl⟩ := skipSome_eq_ok_iff.1 hs
      exact Cursor.skipBlank_skipBlank _
    obtain ⟨clause, gap, hu, hwritten, hgap, hends⟩ := Clause.exists_written_of_read hskip hr
    have hne : d.rest ≠ [] := by
      obtain ⟨b, cs, rfl, _⟩ := hwritten.starts
      simp [hu.rest]
    obtain ⟨gap', hd, hgap'⟩ := passes_of_skipSome hs hne
    have hpasses := ((Cursor.passes_next hrest).trans hd).trans hu
    rw [← List.append_assoc] at hpasses
    refine ⟨.delete literals :: p, (hstops.step hpasses ?_ hgap hends).of_skipBlank,
      by rw [hsteps]; simp [take]⟩
    intro p more hmore h
    rw [List.append_assoc, List.append_assoc]
    change Proof.Written _ _ (100 :: (gap' ++ (clause ++ more)))
    exact .delete rfl hgap' hwritten hmore h
  | case6 x c b bs hrest hcomment hdelete hb literals e' d hr =>
    cases h
    have hfails := (Clause.fails_of_read (congrArg Prod.snd hr)).after c.passes_skipBlank
    exact ⟨[], Proof.stops_of_fails hfails, by simp [take]⟩
  | case7 x c b bs hrest hcomment hdelete hb literals d hr ih =>
    obtain ⟨p, hstops, hsteps⟩ := ih h
    obtain ⟨clause, gap, hd, hwritten, hgap, hends⟩ :=
      Clause.exists_written_of_read c.skipBlank_skipBlank hr
    exact ⟨.add literals :: p, (hstops.step hd (fun _ _ => .add hwritten) hgap hends).of_skipBlank,
      by rw [hsteps]; simp [take]⟩
  | case8 x c b bs hrest hcomment hdelete hb =>
    cases h
    exact ⟨[], Proof.stops_of_fails ((fails_here c.skipBlank _).after c.passes_skipBlank), by simp⟩

/-- Complete steps at the start of a text are read, whatever follows. -/
theorem read_leads {front rest : List UInt8} (h : Proof.Leads g p front rest) (x : Listing)
    (position : Position) :
    ∃ more, (read g x ⟨front ++ rest, position⟩).1.steps = x.steps ++ p.toArray ++ more := by
  obtain ⟨older, broken, rfl, hwritten, hends⟩ := h
  obtain ⟨d, hread, _⟩ := read_written_append hwritten hends x position
  rw [List.append_assoc, hread, read_steps]
  exact ⟨_, rfl⟩

end Listing

namespace Problem

/-- From any state, reading two texts one after the other is reading them as one, with a new line
    between them. The outcomes differ only in the lines of errors in the second text, which are counted
    from its start. Where reading fails, what was stored stays, and the complete steps before the error
    are added: every list of complete steps at the start of the text is a part of them. -/
theorem readProof_pieces (q : Problem) :
    (∀ r t₁ t₂, q.readProof t₁ = (r, none) →
      q.readProof (t₁ ++ newline :: t₂) =
        ((r.readProof t₂).1, (r.readProof t₂).2.map (TextError.down (1 + t₁.count newline)))) ∧
    (∀ r t e, q.readProof t = (r, some e) →
      r.formula = q.formula ∧ r.header = q.header ∧
      ∃ p front rest, r.proof = q.proof ++ p ∧ t = front ++ rest ∧
        e.position = Position.past ⟨1, 1⟩ front ∧ p.Leads .proof front rest ∧
        ∀ p' front' rest', t = front' ++ rest' → Proof.Leads .proof p' front' rest' → p' <+: p) := by
  constructor
  · intro r t₁ t₂ h
    obtain ⟨p, hp, rfl⟩ := readProof_eq_iff.1 h
    rw [readProof, Listing.read_next_line hp, readProof]
    simp [Listing.behind]
  · intro r t e h
    obtain ⟨rfl, hfailed⟩ := Prod.mk.inj h
    obtain ⟨p, ⟨front, d, hd, he, hleads⟩, hsteps⟩ := Listing.stops_of_read hfailed
    rw [Array.empty_append] at hsteps
    refine ⟨rfl, rfl, p, front, d.rest, ?_, hd.rest, he.trans hd.position, hleads, ?_⟩
    · rw [hsteps]
    · rintro p' front' rest' rfl hleads'
      obtain ⟨more, hmore⟩ := Listing.read_leads hleads' ⟨#[], q.maxVar⟩ ⟨1, 1⟩
      refine ⟨more.toList, ?_⟩
      have hlist := congrArg Array.toList (hmore.symm.trans hsteps)
      simpa using hlist

/-- Two clauses and the start of a comment. -/
def firstPiece : List UInt8 := [49, 32, 48, 10, 100, 32, 50, 32, 48, 10, 99, 32]

/-- A clause, and one in the second line with a byte that starts no number. -/
def secondPiece : List UInt8 := [51, 32, 48, 10, 55, 32, 120, 10, 52, 32, 48]

/-- The variable 7 counts, though its clause is not stored. -/
theorem readProof_pieces_in_comment :
    ∃ r s, empty.readProof firstPiece = (r, none) ∧
      r.readProof secondPiece = (s, some ⟨.number, ⟨2, 3⟩⟩) ∧
      s.proof = r.proof ++ [.add [⟨3, false⟩]] ∧ s.maxVar = 7 ∧
      empty.readProof (firstPiece ++ newline :: secondPiece) = (s, some ⟨.number, ⟨5, 3⟩⟩) ∧
      ∃ front rest, secondPiece = front ++ rest ∧ Position.past ⟨1, 1⟩ front = ⟨2, 3⟩ ∧
        Proof.Leads .proof [.add [⟨3, false⟩]] front rest := by
  have hfirst : empty.readProof firstPiece =
      (⟨2, none, [], [.add [⟨1, false⟩], .delete [⟨2, false⟩]]⟩, none) := by
    decide +kernel
  have hsecond : Problem.readProof ⟨2, none, [], [.add [⟨1, false⟩], .delete [⟨2, false⟩]]⟩ secondPiece =
      (⟨7, none, [], [.add [⟨1, false⟩], .delete [⟨2, false⟩], .add [⟨3, false⟩]]⟩,
        some ⟨.number, ⟨2, 3⟩⟩) := by
    decide +kernel
  have hwhole := (readProof_pieces empty).1 _ _ secondPiece hfirst
  rw [hsecond] at hwhole
  obtain ⟨_, _, p, front, rest, hproof, hsplit, hposition, hleads, _⟩ :=
    (readProof_pieces _).2 _ _ _ hsecond
  obtain rfl : [.add [⟨3, false⟩]] = p := by simpa using hproof
  exact ⟨_, _, hfirst, hsecond, rfl, rfl, hwhole, front, rest, hsplit, hposition.symm, hleads⟩

end Problem
end ClausalProof
