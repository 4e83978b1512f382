import ClausalProof.Proofs.Store.Buffer
import ClausalProof.Store

set_option autoImplicit false

/-!
The store as the list of its live clauses. Adding appends to that list and deleting takes out the
first clause with the same literals; the index of an indexed store finds that clause. Identifiers
are given out in order, until they run out.
-/
namespace ClausalProof

namespace Index

theorem ids_empty (key : List Nat) : empty.ids key = [] := by
  simp [ids, empty]

theorem ids_insert (x : Index) (key other ids : List Nat) :
    Index.ids ⟨x.table.insert key ids⟩ other = if key = other then ids else x.ids other := by
  simp only [Index.ids, Std.TreeMap.getD_insert, Std.compare_eq_iff_eq]

theorem ids_erase (x : Index) (key other : List Nat) :
    Index.ids ⟨x.table.erase key⟩ other = if key = other then [] else x.ids other := by
  simp only [Index.ids, Std.TreeMap.getD_erase, Std.compare_eq_iff_eq]

/-- What is taken out is the first identifier under the key, and nothing else changes. -/
theorem takeFirst_cons {x : Index} {key : List Nat} {id : Nat} {rest : List Nat}
    (h : x.ids key = id :: rest) :
    ∃ y, x.takeFirst key = (some id, y) ∧
      ∀ other, y.ids other = if key = other then rest else x.ids other := by
  cases rest with
  | nil => exact ⟨_, by rw [takeFirst, h], ids_erase x key⟩
  | cons next rest => exact ⟨_, by rw [takeFirst, h], fun other => ids_insert x key other _⟩

theorem takeFirst_nil {x : Index} {key : List Nat} (h : x.ids key = []) :
    x.takeFirst key = (none, x) := by
  rw [takeFirst, h]

theorem fst_takeFirst (x : Index) (key : List Nat) : (x.takeFirst key).1 = x.first? key := by
  rw [first?]
  cases hids : x.ids key with
  | nil => rw [takeFirst_nil hids, List.head?_nil]
  | cons id rest =>
    obtain ⟨y, hy, _⟩ := takeFirst_cons hids
    rw [hy, List.head?_cons]

end Index

namespace Store

/-- What the buffer says of the clauses, oldest first. -/
def entries (s : Store) : List Buffer.Entry := s.buffer.entries

/-- The live clauses with their identifiers, oldest first. -/
def liveClauses (s : Store) : List (Nat × Clause) := Buffer.listed 0 s.entries

theorem mem_liveClauses {s : Store} {id : Nat} {c : Clause} :
    (id, c) ∈ s.liveClauses ↔
      ∃ e, s.entries[id]? = some e ∧ e.deleted = false ∧ e.literals = c := by
  rw [liveClauses, Buffer.mem_listed]
  simp

theorem pairwise_liveClauses (s : Store) : s.liveClauses.Pairwise fun x y => x.1 < y.1 :=
  Buffer.pairwise_listed 0 _

theorem entries_eq_some {s : Store} {id : Nat} {e : Buffer.Entry} :
    s.entries[id]? = some e ↔ id < s.size ∧ s.buffer.entry id = e := by
  rw [List.getElem?_eq_some_iff]
  simp [entries, Buffer.entries, size]

theorem lt_size_of_mem {s : Store} {id : Nat} {c : Clause} (h : (id, c) ∈ s.liveClauses) :
    id < s.size := by
  obtain ⟨e, he, _⟩ := mem_liveClauses.1 h
  exact (entries_eq_some.1 he).1

theorem clause_of_mem {s : Store} {id : Nat} {c : Clause} (h : (id, c) ∈ s.liveClauses) :
    s.clause id = .ok c := by
  obtain ⟨e, he, hlive, rfl⟩ := mem_liveClauses.1 h
  obtain ⟨_, rfl⟩ := entries_eq_some.1 he
  exact Buffer.clause_of_entry hlive

theorem eq_of_mem {s : Store} {id : Nat} {c d : Clause} (hc : (id, c) ∈ s.liveClauses)
    (hd : (id, d) ∈ s.liveClauses) : c = d := by
  have h := (clause_of_mem hc).symm.trans (clause_of_mem hd)
  cases h
  rfl

/-- The live clauses, oldest first, without their identifiers. -/
def clauses (s : Store) : List Clause := s.liveClauses.map Prod.snd

theorem mem_clauses {s : Store} {c : Clause} :
    c ∈ s.clauses ↔ ∃ id, (id, c) ∈ s.liveClauses := by
  simp [clauses]

/-- The buffer holds its clauses, the index leads from each set of literals to the live clauses with
    that set, and live clauses have no repeated literals. -/
structure Indexed (s : Store) : Prop where
  holds : s.buffer.Holds s.entries
  ids : ∀ key, s.index.ids key = (s.liveClauses.filter (Clause.key ·.2 == key)).map Prod.fst
  nodup : ∀ x ∈ s.liveClauses, x.2.Nodup
  live : s.live = s.liveClauses.length

theorem Indexed.nodup_clauses {s : Store} (h : s.Indexed) : ∀ c ∈ s.clauses, c.Nodup := by
  intro c hc
  obtain ⟨id, hid⟩ := mem_clauses.1 hc
  exact h.nodup _ hid

theorem Indexed.live_eq {s : Store} (h : s.Indexed) : s.live = s.clauses.length := by
  rw [h.live, clauses, List.length_map]

theorem indexed_empty : empty.Indexed := by
  refine ⟨Buffer.holds_empty, fun key => ?_, fun x hx => ?_, rfl⟩
  · exact Index.ids_empty key
  · exact absurd hx List.not_mem_nil

@[simp] theorem size_empty : empty.size = 0 := rfl

theorem Indexed.length_entries {s : Store} (h : s.Indexed) : s.entries.length = s.size := h.holds.size.symm

/-- What takes a scan of the store to find out: nothing, if the number of clauses is no identifier. -/
def scanned {α : Type} (s : Store) (a : α) : Checked α :=
  if s.size ≤ maxIdentifier then .ok a else .error .identifierRange

theorem scanned_of_le {α : Type} {s : Store} {a : α} (hs : s.size ≤ maxIdentifier) :
    s.scanned a = .ok a := if_pos hs

theorem scanned_of_lt {α : Type} {s : Store} {a : α} (hs : maxIdentifier < s.size) :
    s.scanned a = .error .identifierRange := if_neg (Nat.not_le_of_lt hs)

theorem scanned_eq_ok {α : Type} {s : Store} {a b : α} :
    s.scanned a = .ok b ↔ s.size ≤ maxIdentifier ∧ b = a := by
  rw [scanned]
  split
  · rename_i hs
    simp [hs, eq_comm]
  · rename_i hs
    simp [hs]

/-- Whatever goes on with a scan, it is not done without one. -/
theorem scanned_bind {α β : Type} {s : Store} {a : α} {b : β} {f : α → Checked β}
    (h : s.size ≤ maxIdentifier → f a = .ok b) : s.scanned a >>= f = s.scanned b := by
  by_cases hs : s.size ≤ maxIdentifier
  · rw [scanned_of_le hs, scanned_of_le hs]
    exact h hs
  · rw [scanned_of_lt (Nat.lt_of_not_le hs), scanned_of_lt (Nat.lt_of_not_le hs)]
    rfl

theorem scanned_map {α β : Type} (s : Store) (a : α) (f : α → β) :
    (s.scanned a).map f = s.scanned (f a) := by
  rw [scanned, scanned]
  split <;> rfl

/-- A scan of the buffer gives the live clauses. -/
theorem Indexed.scan_eq {s : Store} (h : s.Indexed) : s.scan = s.scanned s.liveClauses := by
  by_cases hs : s.size ≤ maxIdentifier
  · rw [scanned_of_le hs]
    exact h.holds.scan (h.length_entries ▸ hs)
  · have hlt := Nat.lt_of_not_le hs
    rw [scanned_of_lt hlt, Store.scan, Buffer.scan, Buffer.count_overflow hlt]
    rfl

theorem Indexed.scan {s : Store} (h : s.Indexed) (hs : s.size ≤ maxIdentifier) :
    s.scan = .ok s.liveClauses := by
  rw [h.scan_eq, scanned_of_le hs]

theorem Indexed.scan_eq_ok {s : Store} {xs : List (Nat × Clause)} (h : s.Indexed) :
    s.scan = .ok xs ↔ s.size ≤ maxIdentifier ∧ xs = s.liveClauses := by
  rw [h.scan_eq, scanned_eq_ok]

/-- A new clause gets the next identifier and comes last. -/
theorem Indexed.add {s : Store} {c : Clause} (h : s.Indexed) (derived : Bool)
    (hc : ∀ l ∈ c, l.isZero = false) (hs : s.size ≤ maxIdentifier) :
    ∃ t, s.add c derived = .ok (s.size, t) ∧ t.Indexed ∧ t.size = s.size + 1 ∧
      t.liveClauses = s.liveClauses ++ [(s.size, c.eraseDups)] := by
  obtain ⟨buffer, hbuffer, hholds⟩ := h.holds.add derived hc (h.length_entries ▸ hs)
  rw [h.length_entries] at hbuffer
  have hlast : (s.entries ++ [Buffer.Entry.new c derived])[s.size]? = some (.new c derived) := by
    rw [← h.length_entries, List.getElem?_concat_length]
  have hclause : buffer.clause s.size = .ok c.eraseDups := hholds.clause hlast
  have holder : ((s.index.ids (Clause.key c.eraseDups)).getLast?.all (· < s.size)) = true := by
    rw [h.ids, Option.all_eq_true]
    intro id hid
    obtain ⟨x, hx, rfl⟩ := List.mem_map.1 (List.mem_of_getLast? hid)
    exact decide_eq_true (lt_size_of_mem (List.mem_of_mem_filter hx))
  let t : Store := ⟨buffer,
    ⟨s.index.table.insert (Clause.key c.eraseDups) (s.index.ids (Clause.key c.eraseDups) ++ [s.size])⟩,
    s.live + 1⟩
  have hadd : s.add c derived = .ok (s.size, t) := by
    simp only [Store.add, Index.add, Checked.bind_eq_ok, Checked.pure_eq_ok, require_eq_ok]
    exact ⟨_, hbuffer, _, hclause, _, ⟨(), by simpa using hs, (), holder, rfl⟩, rfl⟩
  have hentries : t.entries = s.entries ++ [.new c derived] := hholds.entries
  have hlive : t.liveClauses = s.liveClauses ++ [(s.size, c.eraseDups)] := by
    rw [liveClauses, liveClauses, hentries, Buffer.listed_append, Nat.zero_add, h.length_entries]
    rfl
  have hsize : t.size = s.size + 1 := by
    rw [← h.length_entries]
    exact hholds.size.trans List.length_append
  refine ⟨t, hadd, ⟨hentries ▸ hholds, ?_, ?_, ?_⟩, hsize, hlive⟩
  · intro key
    rw [Index.ids_insert, hlive, List.filter_append, List.map_append, ← h.ids]
    by_cases hkey : Clause.key c.eraseDups = key
    · simp [hkey]
    · simp [hkey]
  · intro x hx
    rw [hlive] at hx
    rcases List.mem_append.1 hx with hx | hx
    · exact h.nodup x hx
    · exact List.mem_singleton.1 hx ▸ Clause.nodup_eraseDups c
  · rw [hlive, List.length_append, ← h.live]
    rfl

theorem add_overflow {s : Store} (c : Clause) (derived : Bool) (hs : maxIdentifier < s.size) :
    s.add c derived = .error .identifierRange := by
  rw [Store.add, Buffer.add, Buffer.count_overflow hs]
  rfl

/-- `t` is `s` without the clause `d`, the oldest one with the literals of `c`. -/
structure Without (s t : Store) (c : Clause) (older : List (Nat × Clause)) (id : Nat) (d : Clause)
    (newer : List (Nat × Clause)) : Prop where
  before : s.liveClauses = older ++ (id, d) :: newer
  after : t.liveClauses = older ++ newer
  same : Clause.key d = Clause.key c
  oldest : ∀ x ∈ older, Clause.key x.2 ≠ Clause.key c
  size : t.size = s.size
  kept : t.clause id = .ok d

theorem Without.mem {s t : Store} {c d : Clause} {older newer : List (Nat × Clause)} {id : Nat}
    (h : Without s t c older id d newer) : (id, d) ∈ s.liveClauses := by
  rw [h.before]
  simp

theorem Without.mem_iff {s t : Store} {c d : Clause} {older newer : List (Nat × Clause)} {id : Nat}
    (h : Without s t c older id d newer) {x : Nat × Clause} :
    x ∈ t.liveClauses ↔ x ∈ s.liveClauses ∧ x.1 ≠ id := by
  have hsorted := s.pairwise_liveClauses
  rw [h.before, List.pairwise_append] at hsorted
  obtain ⟨_, hnewer, holder⟩ := hsorted
  have hlt : ∀ y ∈ older, y.1 < id := fun y hy => holder y hy (id, d) List.mem_cons_self
  have hgt : ∀ y ∈ newer, id < y.1 := (List.pairwise_cons.1 hnewer).1
  rw [h.after, h.before]
  simp only [List.mem_append, List.mem_cons]
  constructor
  · rintro (hx | hx)
    · exact ⟨.inl hx, Nat.ne_of_lt (hlt x hx)⟩
    · exact ⟨.inr (.inr hx), Nat.ne_of_gt (hgt x hx)⟩
  · rintro ⟨hx | rfl | hx, hne⟩
    · exact .inl hx
    · exact absurd rfl hne
    · exact .inr hx

/-- If the first element that passes a test is `x`, then nothing before `x` does. -/
theorem filter_split {older newer rest : List (Nat × Clause)} {x : Nat × Clause}
    {p : Nat × Clause → Bool} (h : (older ++ x :: newer).filter p = x :: rest) (hx : x ∉ older) :
    older.filter p = [] ∧ newer.filter p = rest := by
  have hp : p x = true := (List.mem_filter.1 (h ▸ List.mem_cons_self)).2
  rw [List.filter_append, List.filter_cons, if_pos hp] at h
  cases holder : older.filter p with
  | nil =>
    rw [holder, List.nil_append] at h
    exact ⟨rfl, (List.cons.inj h).2⟩
  | cons y ys =>
    rw [holder, List.cons_append] at h
    have hy : y ∈ older := List.mem_of_mem_filter (holder ▸ List.mem_cons_self)
    exact absurd ((List.cons.inj h).1 ▸ hy) hx

theorem Indexed.of_without {s t : Store} {c d : Clause} {older newer : List (Nat × Clause)}
    {id : Nat} (h : s.Indexed) (ht : Without s t c older id d newer)
    (hholds : t.buffer.Holds t.entries)
    (hsame : t.index.ids (Clause.key c) =
      (newer.filter (Clause.key ·.2 == Clause.key c)).map Prod.fst)
    (hother : ∀ key, Clause.key c ≠ key → t.index.ids key = s.index.ids key)
    (hlive : t.live = s.live - 1) : t.Indexed := by
  refine ⟨hholds, fun key => ?_, fun x hx => h.nodup x (ht.mem_iff.1 hx).1, ?_⟩
  · rw [ht.after, List.filter_append]
    by_cases hck : Clause.key c = key
    · subst hck
      have hnone : older.filter (Clause.key ·.2 == Clause.key c) = [] :=
        List.filter_eq_nil_iff.2 fun x hx => by simpa using ht.oldest x hx
      rw [hsame, hnone, List.nil_append]
    · have hne : (Clause.key d == key) = false := by
        rw [ht.same]
        simpa using hck
      rw [hother key hck, h.ids, ht.before, List.filter_append, List.filter_cons]
      simp only [hne, Bool.false_eq_true, if_false]
  · have hlen := h.live
    rw [ht.before] at hlen
    rw [ht.after, hlive]
    simp only [List.length_append, List.length_cons] at hlen ⊢
    omega

/-- Deleting takes out the oldest clause with the same literals, or there is none. -/
theorem Indexed.delete {s : Store} (h : s.Indexed) (c : Clause) :
    (s.delete c = .ok (none, s) ∧ ∀ x ∈ s.liveClauses, Clause.key x.2 ≠ Clause.key c) ∨
    ∃ t older id d newer, s.delete c = .ok (some id, t) ∧ t.Indexed ∧
      Without s t c older id d newer := by
  cases hids : s.index.ids (Clause.key c) with
  | nil =>
    left
    refine ⟨by rw [Store.delete, Index.takeFirst_nil hids], ?_⟩
    rw [h.ids] at hids
    intro x hx hkey
    have hmem : x.1 ∈ (s.liveClauses.filter (Clause.key ·.2 == Clause.key c)).map Prod.fst :=
      List.mem_map_of_mem (List.mem_filter.2 ⟨hx, by simpa using hkey⟩)
    rw [hids] at hmem
    simp at hmem
  | cons id rest =>
    right
    obtain ⟨index, htake, hindex⟩ := Index.takeFirst_cons hids
    rw [h.ids] at hids
    obtain ⟨⟨id, d⟩, others, hfilter, rfl, hrest⟩ := List.map_eq_cons_iff.1 hids
    obtain ⟨hmem, hkey⟩ := List.mem_filter.1 (hfilter ▸ List.mem_cons_self)
    obtain ⟨e, he, hdel, rfl⟩ := mem_liveClauses.1 hmem
    obtain ⟨older, newer, hold, _, hlisted, hset⟩ := Buffer.listed_set he hdel (f := e.delete) rfl
    change s.liveClauses = _ at hlisted
    -- the index names the oldest clause with these literals first
    obtain ⟨hnone, hothers⟩ := filter_split (hlisted ▸ hfilter)
      fun hx => Nat.lt_irrefl _ (hold _ hx)
    obtain ⟨buffer, hbuffer, hholds⟩ := h.holds.setMarks (f := e.delete) he rfl
    let t : Store := ⟨buffer, index, s.live - 1⟩
    have hpos : 0 < s.live := by
      rw [h.live]
      exact List.length_pos_of_mem hmem
    have hmarks : e.marks.setDeleted true = e.delete.marks := Marks.setDeleted_of _ _ _ _
    have hdelete : s.delete c = .ok (some id, t) := by
      simp only [Store.delete, htake, Checked.bind_eq_ok, Checked.pure_eq_ok, require_eq_ok]
      refine ⟨_, h.holds.marks he, (), by simp [Buffer.Entry.marks, hdel], _, ?_, (),
        by simpa using hpos, rfl⟩
      rw [hmarks, hbuffer]
    have hentries : t.entries = s.entries.set id e.delete := hholds.entries
    have hwithout : Without s t c older id e.literals newer := by
      refine ⟨hlisted, ?_, beq_iff_eq.1 hkey, fun x hx => ?_, ?_, ?_⟩
      · rw [liveClauses, hentries, hset]
      · simpa using List.filter_eq_nil_iff.1 hnone x hx
      · exact hholds.size.trans (List.length_set.trans h.length_entries)
      · have hget : (s.entries.set id e.delete)[id]? = some e.delete := by
          rw [List.getElem?_set_self (List.getElem?_eq_some_iff.1 he).1]
        exact (hholds.clause hget : buffer.clause id = .ok e.delete.literals)
    refine ⟨t, older, id, e.literals, newer, hdelete,
      h.of_without hwithout (hentries ▸ hholds) ?_ ?_ rfl, hwithout⟩
    · rw [hindex, if_pos rfl, hothers, ← hrest]
    · intro key hck
      rw [hindex, if_neg hck]

theorem Indexed.find? {s : Store} (h : s.Indexed) (c : Clause) :
    (s.find? c).isSome = true ↔ ∃ d ∈ s.clauses, Clause.key d = Clause.key c := by
  rw [Store.find?, Index.first?, h.ids, List.isSome_head?]
  simp only [ne_eq, List.map_eq_nil_iff, List.filter_eq_nil_iff, beq_iff_eq, not_forall, not_not]
  constructor
  · rintro ⟨x, hx, hkey⟩
    exact ⟨x.2, mem_clauses.2 ⟨x.1, hx⟩, hkey⟩
  · rintro ⟨d, hd, hkey⟩
    obtain ⟨id, hx⟩ := mem_clauses.1 hd
    exact ⟨(id, d), hx, hkey⟩

end Store
end ClausalProof
