import ClausalProof.Proofs.Replay
import Mathlib.Data.List.Induction

set_option autoImplicit false

/-!
The store against the plain list of what was added to it. A ledger records every clause as it was
written and marks the deleted ones; it finds a clause by going through its records from the oldest one
on. The store keeps identifiers, marks and literals in one row of cells, drops repeated literals, counts
its live clauses, and finds clauses through an index by sets of literals, which a deletion has to keep in
step with the marks. Whatever clauses are added, deleted and looked for, the store answers as the ledger
does, its cells are those of the ledger, and what is read from them are the clauses of the ledger.
-/
namespace ClausalProof

/-- The literals of a clause that have no equal one before them. -/
def Clause.firstOccurrences (c : Clause) : Clause :=
  (c.zipIdx.filter fun x => !(c.take x.2).contains x.1).map Prod.fst

theorem Clause.eraseDups_eq_firstOccurrences (c : Clause) : c.eraseDups = c.firstOccurrences := by
  induction c using List.reverseRecOn with
  | nil => rfl
  | append_singleton c l ih =>
    -- a literal at the end makes no difference to those before it
    have hbefore : c.zipIdx.filter (fun x => !((c ++ [l]).take x.2).contains x.1) =
        c.zipIdx.filter fun x => !(c.take x.2).contains x.1 := by
      refine List.filter_congr fun x hx => ?_
      have hlt : x.2 < c.length := List.snd_lt_of_mem_zipIdx hx
      rw [List.take_append_of_le_length (Nat.le_of_lt hlt)]
    rw [firstOccurrences, List.zipIdx_append, List.filter_append, hbefore, List.map_append,
      List.eraseDups_append, ih]
    by_cases hl : l ∈ c <;> simp [firstOccurrences, List.removeAll, List.eraseDups_cons, hl]

structure Record where
  written : Clause
  derived : Bool
  deleted : Bool
deriving DecidableEq, Repr

/-- The clauses that were ever added, oldest first. -/
abbrev Ledger := List Record

namespace Record

def addition (r : Record) : Clause × Bool := (r.written, r.derived)

def delete (r : Record) : Record := { r with deleted := true }

/-- The clause is live and has the literals of `c`. -/
def isLiveAs (c : Clause) (r : Record) : Bool := !r.deleted && Plain.sameLiterals c r.written

/-- What a store has of the clause: each literal where it occurs first, and whether any are missing. -/
def entry (r : Record) : Buffer.Entry :=
  ⟨r.written.firstOccurrences, r.derived, r.written.firstOccurrences != r.written, r.deleted⟩

end Record

namespace Store

inductive Call where
  | add (c : Clause) (derived : Bool)
  | delete (c : Clause)
  | find (c : Clause)
deriving DecidableEq, Repr

inductive Reply where
  | added (id : Nat)
  | deleted (id : Option Nat)
  | found (id : Option Nat)
deriving DecidableEq, Repr

def Call.added? : Call → Option (Clause × Bool)
  | .add c derived => some (c, derived)
  | .delete _ => none
  | .find _ => none

/-- The clauses that some calls add, each with its mark as derived. -/
def additions (calls : List Call) : List (Clause × Bool) := calls.filterMap Call.added?

theorem additions_cons (call : Call) (calls : List Call) :
    additions (call :: calls) = call.added?.toList ++ additions calls := by
  cases call <;> rfl

def perform (s : Store) : Call → Checked (Store × Reply)
  | .add c derived => do
    let (id, s) ← s.add c derived
    return (s, .added id)
  | .delete c => do
    let (id, s) ← s.delete c
    return (s, .deleted id)
  | .find c => .ok (s, .found (s.find? c))

def performAll (s : Store) : List Call → Checked (Store × List Reply)
  | [] => .ok (s, [])
  | call :: calls => do
    let (s, reply) ← s.perform call
    let (s, replies) ← s.performAll calls
    return (s, reply :: replies)

end Store

theorem map_modify {α β : Type} (f : α → α) (g : α → β) (h : β → β) (hfg : ∀ a, g (f a) = h (g a))
    (i : Nat) (xs : List α) : (xs.modify i f).map g = (xs.map g).modify i h := by
  induction xs generalizing i with
  | nil => simp
  | cons x xs ih =>
    cases i with
    | zero => simp [hfg]
    | succ i => simp [ih]

namespace Ledger

def oldest? (rs : Ledger) (c : Clause) : Option Nat := rs.findIdx? (Record.isLiveAs c)

def deleteAt (rs : Ledger) : Option Nat → Ledger
  | none => rs
  | some id => rs.modify id Record.delete

def answer (rs : Ledger) : Store.Call → Ledger × Store.Reply
  | .add c derived => (rs ++ [⟨c, derived, false⟩], .added rs.length)
  | .delete c => (rs.deleteAt (rs.oldest? c), .deleted (rs.oldest? c))
  | .find c => (rs, .found (rs.oldest? c))

def answerAll (rs : Ledger) : List Store.Call → Ledger × List Store.Reply
  | [] => (rs, [])
  | call :: calls =>
    let rest := answerAll (rs.answer call).1 calls
    (rest.1, (rs.answer call).2 :: rest.2)

theorem map_answer (rs : Ledger) (call : Store.Call) :
    (rs.answer call).1.map Record.addition = rs.map Record.addition ++ call.added?.toList := by
  cases call with
  | add c derived => simp [answer, Store.Call.added?, Record.addition]
  | delete c =>
    rw [answer, Store.Call.added?, Option.toList_none, List.append_nil]
    cases rs.oldest? c with
    | none => rfl
    | some i =>
      -- a record that is marked keeps what was written
      have hkept := map_modify Record.delete Record.addition id (fun _ => rfl) i rs
      rwa [List.modify_id] at hkept
  | find c => simp [answer, Store.Call.added?]

theorem map_answerAll (rs : Ledger) (calls : List Store.Call) :
    (rs.answerAll calls).1.map Record.addition = rs.map Record.addition ++ Store.additions calls := by
  induction calls generalizing rs with
  | nil => simp [answerAll, Store.additions]
  | cons call calls ih => rw [answerAll, ih, map_answer, Store.additions_cons, List.append_assoc]

end Ledger

namespace Store

/-- The store has the cells of the ledger and reads its clauses from them, finds the oldest live one with
    given literals, and deletes it without a change to anything but its mark. -/
structure Represents (s : Store) (rs : Ledger) : Prop where
  holds : s.buffer.Holds (rs.map Record.entry)
  count : s.buffer.count = .ok rs.length
  clause : ∀ id r, rs[id]? = some r → s.clause id = .ok r.written.firstOccurrences
  marks : ∀ id r, rs[id]? = some r → ∃ m, s.buffer.marks id = .ok m ∧ m.isDerived = r.derived ∧
    m.isRepeated = (r.written.firstOccurrences != r.written) ∧ m.isDeleted = r.deleted
  isLive : ∀ id r, rs[id]? = some r → s.isLive id = .ok (!r.deleted)
  live : s.live = rs.countP fun r => !r.deleted
  scan : ∃ live, s.scan = .ok live ∧ live.Pairwise (fun x y => x.1 < y.1) ∧ ∀ id c, (id, c) ∈ live ↔
    ∃ r, rs[id]? = some r ∧ r.deleted = false ∧ r.written.firstOccurrences = c
  find? : ∀ c, s.find? c = rs.oldest? c
  delete_none : ∀ c, rs.oldest? c = none → s.delete c = .ok (none, s)
  delete_some : ∀ c id, rs.oldest? c = some id → ∃ t start live, s.delete c = .ok (some id, t) ∧
    s.buffer.offset[id]? = some start ∧ t.buffer.offset = s.buffer.offset ∧
    t.buffer.data =
      s.buffer.data.modify (start + Buffer.marksOffset)
        (fun cell => ((Marks.ofCell cell).setDeleted true).cell) ∧
    t.live + 1 = s.live ∧ s.scan = .ok live ∧ t.scan = .ok (live.filter (·.1 != id))

variable {s t : Store} {rs : Ledger}

theorem length_listed (k : Nat) (es : List Buffer.Entry) :
    (Buffer.listed k es).length = es.countP fun e => !e.deleted := by
  induction es generalizing k with
  | nil => rfl
  | cons e es ih =>
    rw [Buffer.listed_cons, List.countP_cons, ← ih (k + 1)]
    cases e.deleted <;> rfl

/-- Looking up the first live clause that passes a test is looking through the entries in order. -/
theorem head?_listed (p : Clause → Bool) (k : Nat) (es : List Buffer.Entry) :
    (((Buffer.listed k es).filter (p ·.2)).map Prod.fst).head? =
      (es.findIdx? fun e => !e.deleted && p e.literals).map (k + ·) := by
  induction es generalizing k with
  | nil => rfl
  | cons e es ih =>
    have hshift : (fun i => k + i) ∘ (fun i => i + 1) = fun i => k + 1 + i := by
      funext i
      simp only [Function.comp_apply]
      omega
    -- an entry is passed over if it is deleted or does not pass the test
    rw [Buffer.listed_cons, List.findIdx?_cons]
    cases e.deleted with
    | true => simp [ih, hshift]
    | false => cases hp : p e.literals <;> simp [ih, hshift, hp]

theorem Indexed.add_entries {c : Clause} {derived : Bool} {id : Nat} (h : s.Indexed)
    (hadd : s.add c derived = .ok (id, t)) : t.entries = s.entries ++ [.new c derived] := by
  obtain ⟨hc, hsize⟩ := add_eq_ok hadd
  obtain ⟨d, hd, hholds⟩ := h.holds.add derived hc (h.length_entries ▸ hsize)
  cases hd.symm.trans (buffer_of_add hadd)
  exact hholds.entries

/-- A deletion reads the marks of a clause and writes them back with one more bit. -/
theorem buffer_of_delete {c : Clause} {found : Option Nat} (h : s.delete c = .ok (found, t)) :
    found = s.find? c ∧ (found = none → t = s) ∧ ∀ id, found = some id → ∃ m,
      s.buffer.marks id = .ok m ∧ s.buffer.setMarks id (m.setDeleted true) = .ok t.buffer ∧
      t.live + 1 = s.live := by
  have hfirst := Index.fst_takeFirst s.index (Clause.key c)
  rw [Store.delete] at h
  generalize s.index.takeFirst (Clause.key c) = taken at h hfirst
  obtain ⟨first, index⟩ := taken
  cases first with
  | none =>
    cases h
    refine ⟨hfirst, fun _ => rfl, fun id hid => ?_⟩
    cases hid
  | some i =>
    simp only [Checked.bind_eq_ok, Checked.pure_eq_ok, require_eq_ok, decide_eq_true_eq] at h
    obtain ⟨m, hm, _, _, buffer, hset, _, hpos, h⟩ := h
    cases h
    refine ⟨hfirst, fun hnone => (by cases hnone), fun id hid => ?_⟩
    cases hid
    exact ⟨m, hm, hset, Nat.sub_add_cancel hpos⟩

theorem Indexed.delete_entries {c : Clause} {id : Nat} (h : s.Indexed)
    (hdel : s.delete c = .ok (some id, t)) : t.entries = s.entries.modify id Buffer.Entry.delete := by
  obtain ⟨m, hm, hset, _⟩ := (buffer_of_delete hdel).2.2 id rfl
  rcases h.delete c with ⟨hs, _⟩ | ⟨u, _, i, d, _, hu, _, hwithout⟩
  · cases hs.symm.trans hdel
  cases hu.symm.trans hdel
  obtain ⟨e, he, _⟩ := mem_liveClauses.1 hwithout.mem
  obtain ⟨b, hb, hholds⟩ := h.holds.setMarks (f := e.delete) he rfl
  cases hm.symm.trans (h.holds.marks he)
  rw [Buffer.Entry.marks, Marks.setDeleted_of] at hset
  cases hb.symm.trans hset
  rw [List.modify_eq_set_getElem?, he]
  exact hholds.entries

/-- In the cells only the marks of the deleted clause change. -/
theorem delete_cells {c : Clause} {id : Nat} (h : s.delete c = .ok (some id, t)) :
    ∃ start, s.buffer.offset[id]? = some start ∧ t.buffer.offset = s.buffer.offset ∧
      t.buffer.data =
        s.buffer.data.modify (start + Buffer.marksOffset)
          (fun cell => ((Marks.ofCell cell).setDeleted true).cell) := by
  obtain ⟨m, hm, hset, _⟩ := (buffer_of_delete h).2.2 id rfl
  obtain ⟨start, hstart, hlt, hbuffer⟩ := Buffer.setMarks_eq_ok.1 hset
  simp only [Buffer.marks, Checked.bind_eq_ok, Checked.pure_eq_ok, Bounded.get_eq_ok, hstart] at hm
  obtain ⟨_, hstart', cell, hcell, rfl⟩ := hm
  cases hstart'
  refine ⟨start, hstart, by rw [hbuffer], ?_⟩
  rw [hbuffer]
  apply Array.ext_getElem?
  intro j
  rw [Array.getElem?_modify, Array.getElem?_setIfInBounds]
  by_cases hj : start + Buffer.marksOffset = j
  · subst hj
    rw [if_pos rfl, if_pos hlt, if_pos rfl, hcell]
    rfl
  · rw [if_neg hj, if_neg hj]

theorem Without.filter {c d : Clause} {older newer : List (Nat × Clause)} {id : Nat}
    (h : Without s t c older id d newer) : t.liveClauses = s.liveClauses.filter (·.1 != id) := by
  have hsorted := s.pairwise_liveClauses
  rw [h.before, List.pairwise_append] at hsorted
  obtain ⟨_, hnewer, holder⟩ := hsorted
  have hlt : ∀ x ∈ older, (x.1 != id) = true := fun x hx =>
    bne_iff_ne.2 (Nat.ne_of_lt (holder x hx (id, d) List.mem_cons_self))
  have hgt : ∀ x ∈ newer, (x.1 != id) = true := fun x hx =>
    bne_iff_ne.2 (Nat.ne_of_gt ((List.pairwise_cons.1 hnewer).1 x hx))
  rw [h.after, h.before, List.filter_append, List.filter_cons_of_neg (by simp),
    List.filter_eq_self.2 hlt, List.filter_eq_self.2 hgt]

/-- The index is in step with the entries, and these are those of the ledger. -/
structure Mirrors (s : Store) (rs : Ledger) : Prop where
  indexed : s.Indexed
  entries : s.entries = rs.map Record.entry

theorem mirrors_empty : empty.Mirrors [] := ⟨indexed_empty, rfl⟩

theorem Mirrors.size (h : s.Mirrors rs) : s.size = rs.length := by
  rw [← h.indexed.length_entries, h.entries, List.length_map]

theorem Mirrors.get? (h : s.Mirrors rs) {id : Nat} {r : Record} (hr : rs[id]? = some r) :
    s.entries[id]? = some r.entry := by
  rw [h.entries, List.getElem?_map, hr]
  rfl

theorem Mirrors.find? (h : s.Mirrors rs) (c : Clause) : s.find? c = rs.oldest? c := by
  have htest : (fun e : Buffer.Entry => !e.deleted && Clause.key e.literals == Clause.key c) ∘
      Record.entry = Record.isLiveAs c := by
    funext r
    have hsame : (Clause.key r.written == Clause.key c) = Plain.sameLiterals c r.written := by
      rw [Bool.eq_iff_iff, beq_iff_eq, Plain.sameLiterals_iff]
    simp [Record.entry, Record.isLiveAs, ← Clause.eraseDups_eq_firstOccurrences, Clause.key_eraseDups,
      hsame]
  rw [Store.find?, Index.first?, h.indexed.ids, liveClauses,
    head?_listed (Clause.key · == Clause.key c), h.entries, List.findIdx?_map, htest]
  simp [Ledger.oldest?]

theorem Mirrors.add {c : Clause} (h : s.Mirrors rs) (derived : Bool)
    (hc : ∀ l ∈ c, l.isZero = false) (hsize : s.size ≤ maxIdentifier) :
    ∃ t, s.add c derived = .ok (rs.length, t) ∧ t.Mirrors (rs ++ [⟨c, derived, false⟩]) := by
  obtain ⟨t, ht, hindexed, _⟩ := h.indexed.add derived hc hsize
  refine ⟨t, h.size ▸ ht, hindexed, ?_⟩
  have hdropped : (c.eraseDups.length != c.length) = (c.eraseDups != c) := by
    rw [Bool.eq_iff_iff, bne_iff_ne, bne_iff_ne, not_iff_not]
    exact ⟨(Clause.eraseDups_sublist c).eq_of_length, congrArg List.length⟩
  rw [h.indexed.add_entries ht, h.entries, List.map_append, Buffer.Entry.new, hdropped,
    Clause.eraseDups_eq_firstOccurrences]
  rfl

theorem Mirrors.delete (h : s.Mirrors rs) (c : Clause) :
    ∃ t, s.delete c = .ok (rs.oldest? c, t) ∧ t.Mirrors (rs.deleteAt (rs.oldest? c)) := by
  obtain ⟨found, t, ht, hindexed⟩ : ∃ found t, s.delete c = .ok (found, t) ∧ t.Indexed := by
    rcases h.indexed.delete c with ⟨hs, _⟩ | ⟨t, _, id, _, _, ht, hindexed, _⟩
    · exact ⟨none, s, hs, h.indexed⟩
    · exact ⟨some id, t, ht, hindexed⟩
  obtain ⟨hfound, hnone, _⟩ := buffer_of_delete ht
  rw [← h.find? c, ← hfound]
  refine ⟨t, ht, hindexed, ?_⟩
  cases found with
  | none => rw [hnone rfl, h.entries, Ledger.deleteAt]
  | some id =>
    rw [h.indexed.delete_entries ht, h.entries]
    exact (map_modify Record.delete Record.entry Buffer.Entry.delete (fun _ => rfl) id rs).symm

theorem Mirrors.perform {call : Call} (h : s.Mirrors rs)
    (hcall : ∀ x ∈ call.added?, ∀ l ∈ x.1, l.isZero = false)
    (hsize : rs.length + call.added?.toList.length ≤ maxIdentifier + 1) :
    ∃ t, s.perform call = .ok (t, (rs.answer call).2) ∧ t.Mirrors (rs.answer call).1 := by
  cases call with
  | add c derived =>
    have hle : s.size ≤ maxIdentifier := by
      rw [h.size]
      simp only [Call.added?, Option.toList_some, List.length_singleton] at hsize
      omega
    obtain ⟨t, ht, hmirrors⟩ := h.add derived (hcall (c, derived) rfl) hle
    exact ⟨t, by rw [Store.perform, ht]; rfl, hmirrors⟩
  | delete c =>
    obtain ⟨t, ht, hmirrors⟩ := h.delete c
    exact ⟨t, by rw [Store.perform, ht]; rfl, hmirrors⟩
  | find c => exact ⟨s, by rw [Store.perform, h.find? c]; rfl, h⟩

theorem Mirrors.performAll {calls : List Call} (h : s.Mirrors rs)
    (hcalls : ∀ x ∈ additions calls, ∀ l ∈ x.1, l.isZero = false)
    (hsize : rs.length + (additions calls).length ≤ maxIdentifier + 1) :
    ∃ t, s.performAll calls = .ok (t, (rs.answerAll calls).2) ∧ t.Mirrors (rs.answerAll calls).1 := by
  induction calls generalizing s rs with
  | nil => exact ⟨s, rfl, h⟩
  | cons call calls ih =>
    rw [additions_cons, List.forall_mem_append] at hcalls
    rw [additions_cons, List.length_append] at hsize
    obtain ⟨u, hu, hmirrors⟩ := h.perform (by simpa using hcalls.1) (by omega)
    have hlength : (rs.answer call).1.length = rs.length + call.added?.toList.length := by
      simpa using congrArg List.length (rs.map_answer call)
    obtain ⟨t, ht, hlast⟩ := ih hmirrors hcalls.2 (by omega)
    refine ⟨t, ?_, hlast⟩
    rw [Store.performAll, hu]
    simp only [bind, Except.bind, ht]
    rfl

theorem Mirrors.mem_liveClauses (h : s.Mirrors rs) (id : Nat) (c : Clause) :
    (id, c) ∈ s.liveClauses ↔
      ∃ r, rs[id]? = some r ∧ r.deleted = false ∧ r.written.firstOccurrences = c := by
  rw [Store.mem_liveClauses, h.entries, List.getElem?_map]
  constructor
  · rintro ⟨e, he, hlive, hc⟩
    obtain ⟨r, hr, rfl⟩ := Option.map_eq_some_iff.1 he
    exact ⟨r, hr, hlive, hc⟩
  · rintro ⟨r, hr, hlive, hc⟩
    exact ⟨r.entry, Option.map_eq_some_iff.2 ⟨r, hr, rfl⟩, hlive, hc⟩

theorem Mirrors.delete_some {c : Clause} {id : Nat} (h : s.Mirrors rs) (hsize : rs.length ≤ maxIdentifier)
    (hc : rs.oldest? c = some id) :
    ∃ t start live, s.delete c = .ok (some id, t) ∧
      s.buffer.offset[id]? = some start ∧ t.buffer.offset = s.buffer.offset ∧
      t.buffer.data =
        s.buffer.data.modify (start + Buffer.marksOffset)
          (fun cell => ((Marks.ofCell cell).setDeleted true).cell) ∧
      t.live + 1 = s.live ∧ s.scan = .ok live ∧ t.scan = .ok (live.filter (·.1 != id)) := by
  obtain ⟨t, ht, hmirrors⟩ := h.delete c
  rw [hc] at ht
  obtain ⟨start, hstart, hoffset, hdata⟩ := delete_cells ht
  obtain ⟨_, _, _, hlive⟩ := (buffer_of_delete ht).2.2 id rfl
  rcases h.indexed.delete c with ⟨hnone, _⟩ | ⟨u, _, i, _, _, hu, _, hwithout⟩
  · cases hnone.symm.trans ht
  cases hu.symm.trans ht
  have hs : s.size ≤ maxIdentifier := h.size ▸ hsize
  refine ⟨t, start, s.liveClauses, ht, hstart, hoffset, hdata, hlive, h.indexed.scan hs, ?_⟩
  rw [hmirrors.indexed.scan (hwithout.size ▸ hs), hwithout.filter]

theorem Mirrors.represents (h : s.Mirrors rs) (hsize : rs.length ≤ maxIdentifier) : s.Represents rs := by
  have hs : s.size ≤ maxIdentifier := h.size ▸ hsize
  have hholds := h.indexed.holds
  constructor
  case holds => exact h.entries ▸ hholds
  case count => exact Buffer.count_eq_ok.2 ⟨hs, h.size.symm⟩
  case clause => exact fun id r hr => hholds.clause (h.get? hr)
  case marks =>
    intro id r hr
    exact ⟨_, hholds.marks (h.get? hr), Marks.isDerived_of _ _ _, Marks.isRepeated_of _ _ _,
      Marks.isDeleted_of _ _ _⟩
  case isLive => exact fun id r hr => hholds.isLive (h.get? hr)
  case live =>
    rw [h.indexed.live, liveClauses, length_listed, h.entries, List.countP_map]
    rfl
  case scan =>
    exact ⟨_, h.indexed.scan hs, s.pairwise_liveClauses, h.mem_liveClauses⟩
  case find? => exact h.find?
  case delete_none =>
    intro c hc
    obtain ⟨t, ht, _⟩ := h.delete c
    rw [hc] at ht
    rw [ht, (buffer_of_delete ht).2.1 rfl]
  case delete_some => exact fun c id hc => h.delete_some hsize hc

/-- A store answers every call as the list of all clauses ever added does, and represents that list,
    as long as there are identifiers. -/
theorem performAll_represents (calls : List Call)
    (hcalls : ∀ x ∈ additions calls, ∀ l ∈ x.1, l.isZero = false)
    (hsize : (additions calls).length ≤ maxIdentifier) :
    ∃ s, empty.performAll calls = .ok (s, (Ledger.answerAll [] calls).2) ∧
      s.Represents (Ledger.answerAll [] calls).1 ∧
      (Ledger.answerAll [] calls).1.map Record.addition = additions calls := by
  have hfits : ([] : Ledger).length + (additions calls).length ≤ maxIdentifier + 1 := by
    rw [List.length_nil]
    omega
  obtain ⟨s, hs, hmirrors⟩ := mirrors_empty.performAll hcalls hfits
  have hadded := Ledger.map_answerAll [] calls
  have hlength : (Ledger.answerAll [] calls).1.length = (additions calls).length := by
    simpa using congrArg List.length hadded
  exact ⟨s, hs, hmirrors.represents (hlength ▸ hsize), hadded⟩

/-- The first and the last clause have the same literals. -/
def equalClauses : List Call :=
  [.add [⟨1, false⟩, ⟨2, true⟩, ⟨1, false⟩] false, .add [⟨2, true⟩, ⟨2, false⟩] true,
    .add [⟨2, true⟩, ⟨1, false⟩] true, .find [⟨1, false⟩, ⟨2, true⟩], .delete [⟨2, true⟩, ⟨1, false⟩],
    .delete [⟨1, false⟩], .find [⟨1, false⟩, ⟨2, true⟩, ⟨2, true⟩]]

/-- The older one is found, and the newer one once the older one is deleted. The marks of the older one
    say that it is deleted and that a literal was repeated. -/
theorem performAll_represents_oldest :
    ∃ s, empty.performAll equalClauses = .ok (s, [.added 0, .added 1, .added 2, .found (some 0),
        .deleted (some 0), .deleted none, .found (some 2)]) ∧
      s.clause 0 = .ok [⟨1, false⟩, ⟨2, true⟩] ∧ s.isLive 0 = .ok false ∧ s.live = 2 ∧
      s.buffer.offset.toList = [0, 5, 10, 15] ∧
      s.buffer.data.toList.map Literal.code = [0, 5, 2, 5, 0, 1, 2, 5, 4, 0, 2, 2, 5, 2, 0] := by
  obtain ⟨s, hs, hrepresents, _⟩ := performAll_represents equalClauses (by decide) (by decide)
  refine ⟨s, hs, ?_, ?_, hrepresents.live, ?_, ?_⟩
  · exact hrepresents.clause 0 ⟨[⟨1, false⟩, ⟨2, true⟩, ⟨1, false⟩], false, true⟩ (by decide)
  · exact hrepresents.isLive 0 ⟨[⟨1, false⟩, ⟨2, true⟩, ⟨1, false⟩], false, true⟩ (by decide)
  · rw [hrepresents.holds.offset]
    decide
  · rw [hrepresents.holds.data]
    decide

end Store
end ClausalProof
