import ClausalProof.Proofs.Engine.Redundancy
import ClausalProof.Proofs.Replay

set_option autoImplicit false

/-!
Histories of an engine: clauses are added, deleted, checked, or refuted with the refutation undone, in
any order. A check moves watches around and may break off anywhere, and nothing is moved back; still
every history ends in an engine that lists each clause under its two watched literals and nowhere
else. A history breaks off only when the identifiers are used up.
-/
namespace ClausalProof.Engine

/-- A call that leaves no assignment behind. -/
inductive Operation where
  | add (c : Clause) (derived : Bool)
  | delete (c : Clause)
  | checkImplied (c reported : Clause) (evidence : Bool)
  | checkResolved (c : Clause) (evidence : Bool)
  | refute (c : Clause)
deriving DecidableEq, Repr

/-- What a call returns. -/
inductive Reply where
  | added (id : Nat)
  | deleted (id : Option Nat)
  | implied (judgment : Judgment RupFailure)
  | resolved (judgment : Judgment RatFailure)
  | refuted (progress : Progress)
deriving DecidableEq, Repr

namespace Operation

def clause : Operation → Clause
  | .add c _ => c
  | .delete c => c
  | .checkImplied c _ _ => c
  | .checkResolved c _ => c
  | .refute c => c

/-- The operation asks and changes no clause. -/
def isCheck : Operation → Bool
  | .add _ _ => false
  | .delete _ => false
  | _ => true

/-- The number of identifiers that an operation takes. -/
def additions : Operation → Nat
  | .add _ _ => 1
  | _ => 0

/-- The literals of the operation are valid and have a place in tables for the variables up to `n`. -/
def Within (n : Nat) (op : Operation) : Prop :=
  ∀ l ∈ op.clause, l.isValid = true ∧ l.var ≤ n

instance (n : Nat) (op : Operation) : Decidable (op.Within n) :=
  inferInstanceAs (Decidable (∀ l ∈ op.clause, l.isValid = true ∧ l.var ≤ n))

end Operation

def perform (e : Engine) : Operation → Checked (Engine × Reply)
  | .add c derived => do
    let (id, e) ← e.add c derived
    return (e, .added id)
  | .delete c => do
    let (id, e) ← e.delete c
    return (e, .deleted id)
  | .checkImplied c reported evidence => do
    let (e, judgment) ← e.checkImplied c reported evidence
    return (e, .implied judgment)
  | .checkResolved c evidence => do
    let (e, judgment) ← e.checkResolved c evidence
    return (e, .resolved judgment)
  | .refute c => do
    let (e, progress) ← e.refute c
    return (← e.backtrack, .refuted progress)

def performAll (e : Engine) : List Operation → Checked (Engine × List Reply)
  | [] => .ok (e, [])
  | op :: ops => do
    let (e, reply) ← e.perform op
    let (e, replies) ← e.performAll ops
    return (e, reply :: replies)

/-- The number of clauses that a history adds. -/
def additions : List Operation → Nat
  | [] => 0
  | op :: ops => op.additions + additions ops

theorem Idle.checkResolved_idle {e : Engine} {c : Clause} (h : e.Idle)
    (hc : ∀ l ∈ c, l.isValid = true ∧ l.var ≤ e.maxVar) (evidence : Bool) :
    (∃ f judgment, e.checkResolved c evidence = .ok (f, judgment) ∧ f.Idle ∧ f.store = e.store ∧
      f.maxVar = e.maxVar) ∨
    (e.checkResolved c evidence = .error .identifierRange ∧ maxIdentifier < e.store.size) := by
  cases c with
  | nil => exact .inl ⟨e, .fails none, rfl, h, rfl, rfl⟩
  | cons p c =>
    obtain ⟨f, hf, hrest⟩ := h.checkResolved hc
    rw [hf evidence]
    by_cases hs : e.store.size ≤ maxIdentifier
    · exact .inl ⟨f, _, Store.scanned_of_le hs, hrest⟩
    · exact .inr ⟨Store.scanned_of_lt (Nat.lt_of_not_le hs), Nat.lt_of_not_le hs⟩

theorem Idle.perform_check {e : Engine} {op : Operation} (h : e.Idle) (hcheck : op.isCheck = true)
    (hop : op.Within e.maxVar) :
    (∃ f reply, e.perform op = .ok (f, reply) ∧ f.Idle ∧ f.store = e.store ∧ f.maxVar = e.maxVar) ∨
    (e.perform op = .error .identifierRange ∧ maxIdentifier < e.store.size) := by
  cases op with
  | add c derived => cases hcheck
  | delete c => cases hcheck
  | checkImplied c reported evidence =>
    have hc : ∀ l ∈ c, l.isValid = true ∧ l.var ≤ e.maxVar := hop
    obtain ⟨f, hf, hrest⟩ := h.checkImplied hc
    rcases impliedAnswer_cases e.store reported evidence (Plain.rest? e.store.clauses c) with
      hanswer | ⟨hanswer, hlt⟩
    · refine .inl ⟨f, .implied (impliedJudgment reported evidence (Plain.rest? e.store.clauses c)), ?_,
        hrest⟩
      simp [Engine.perform, hf, hanswer, bind, Except.bind, pure, Except.pure, Except.map]
    · refine .inr ⟨?_, hlt⟩
      simp [Engine.perform, hf, hanswer, bind, Except.bind, Except.map]
  | checkResolved c evidence =>
    have hc : ∀ l ∈ c, l.isValid = true ∧ l.var ≤ e.maxVar := hop
    rcases h.checkResolved_idle hc evidence with ⟨f, judgment, hf, hrest⟩ | ⟨hf, hlt⟩
    · refine .inl ⟨f, .resolved judgment, ?_, hrest⟩
      simp [Engine.perform, hf, bind, Except.bind, pure, Except.pure]
    · refine .inr ⟨?_, hlt⟩
      simp [Engine.perform, hf, bind, Except.bind]
  | refute c =>
    have hc : ∀ l ∈ c, l.isValid = true ∧ l.var ≤ e.maxVar := hop
    obtain ⟨f, p, hf, hon, hrunning, _⟩ := h.refute_closure hc
    obtain ⟨g, hback, hidle, hstore, hmax⟩ := hrunning.backtrack
    refine .inl ⟨g, .refuted p, ?_, hidle, hstore.trans hon.store, hmax.trans hon.maxVar⟩
    simp [Engine.perform, hf, hback, bind, Except.bind, pure, Except.pure]

/-- What one operation can do to an idle engine. -/
theorem Idle.perform {e : Engine} {op : Operation} (h : e.Idle) (hop : op.Within e.maxVar) :
    (∃ f reply, e.perform op = .ok (f, reply) ∧ f.Idle ∧ f.maxVar = e.maxVar ∧
      f.store.size = e.store.size + op.additions) ∨
    (e.perform op = .error .identifierRange ∧ maxIdentifier < e.store.size) := by
  by_cases hcheck : op.isCheck = true
  · refine (h.perform_check hcheck hop).imp_left ?_
    rintro ⟨f, reply, hf, hidle, hstore, hmax⟩
    have hnone : op.additions = 0 := by
      cases op with
      | add c derived => cases hcheck
      | _ => rfl
    exact ⟨f, reply, hf, hidle, hmax, by rw [hstore, hnone, Nat.add_zero]⟩
  cases op with
  | add c derived =>
    have hc : ∀ l ∈ c, l.isValid = true ∧ l.var ≤ e.maxVar := hop
    by_cases hs : e.store.size ≤ maxIdentifier
    · left
      obtain ⟨f, hadd, hf, hmax, hstore, _⟩ := h.add derived hc hs
      refine ⟨f, .added e.store.size, ?_, hf, hmax, ?_⟩
      · simp [Engine.perform, hadd, bind, Except.bind, pure, Except.pure]
      · exact (h.indexed.of_add hstore).2.2
    · right
      refine ⟨?_, Nat.lt_of_not_le hs⟩
      simp [Engine.perform, h.add_overflow derived hc (by omega), bind, Except.bind]
  | delete c =>
    left
    rcases h.delete c with ⟨hdel, _⟩ | ⟨f, older, id, d, newer, hdel, hf, hmax, hstore, _⟩
    · refine ⟨e, .deleted none, ?_, h, rfl, rfl⟩
      simp [Engine.perform, hdel, bind, Except.bind, pure, Except.pure]
    · refine ⟨f, .deleted (some id), ?_, hf, hmax, (h.indexed.of_delete hstore).2.2⟩
      simp [Engine.perform, hdel, bind, Except.bind, pure, Except.pure]
  | _ => exact absurd rfl hcheck

theorem Idle.performAll {e : Engine} {ops : List Operation} (h : e.Idle)
    (hops : ∀ op ∈ ops, op.Within e.maxVar) :
    (∃ f replies, e.performAll ops = .ok (f, replies) ∧ f.Idle ∧ f.maxVar = e.maxVar ∧
      f.store.size = e.store.size + additions ops) ∨
    (e.performAll ops = .error .identifierRange ∧ maxIdentifier < e.store.size + additions ops) := by
  induction ops generalizing e with
  | nil => exact .inl ⟨e, [], rfl, h, rfl, rfl⟩
  | cons op ops ih =>
    rw [additions]
    rcases h.perform (hops op List.mem_cons_self) with ⟨f, reply, hop, hf, hmax, hsize⟩ | ⟨hop, hlt⟩
    · rcases ih hf fun o ho => hmax.symm ▸ hops o (List.mem_cons_of_mem _ ho) with
        ⟨g, replies, hrun, hg, hmax', hsize'⟩ | ⟨hrun, hlt⟩
      · refine .inl ⟨g, reply :: replies, ?_, hg, hmax'.trans hmax, by omega⟩
        simp [Engine.performAll, hop, hrun, bind, Except.bind, pure, Except.pure]
      · refine .inr ⟨?_, by omega⟩
        simp [Engine.performAll, hop, hrun, bind, Except.bind]
    · refine .inr ⟨?_, by omega⟩
      simp [Engine.performAll, hop, bind, Except.bind]

/-- The engine is what a history has made of an engine without clauses. -/
def Reached (e : Engine) (n : Nat) : Prop :=
  ∃ ops replies, (∀ op ∈ ops, op.Within n) ∧ (empty n).performAll ops = .ok (e, replies)

theorem Reached.idle {e : Engine} {n : Nat} (h : e.Reached n) : e.Idle ∧ e.maxVar = n := by
  obtain ⟨ops, replies, hops, hrun⟩ := h
  rcases (idle_empty n).performAll hops with ⟨f, _, hf, hidle, hmax, _⟩ | ⟨herror, _⟩
  · cases hf.symm.trans hrun
    exact ⟨hidle, hmax⟩
  · cases herror.symm.trans hrun

/-- Nothing of a check is left, each clause is where its length says, and nowhere else. -/
structure Tidy (e : Engine) : Prop where
  trail : e.trail = .empty e.maxVar
  processed : e.processed = 0
  watches : e.watches.size = e.store.size
  watched : ∀ id c, (id, c) ∈ e.store.liveClauses → 2 ≤ c.length →
    ∃ w a b, e.watches[id]? = some w ∧ w.first ≠ w.second ∧
      (c)[w.first]? = some a ∧ (c)[w.second]? = some b ∧
      ∀ l, (rowOf e.watchers l).count id = if l = a ∨ l = b then 1 else 0
  listed : ∀ l id, id ∈ rowOf e.watchers l → ∃ c, (id, c) ∈ e.store.liveClauses ∧ 2 ≤ c.length
  units : ∀ id, id ∈ e.units ↔ ∃ l, (id, [l]) ∈ e.store.liveClauses
  units_increasing : e.units.Pairwise (· < ·)
  empties : e.emptyCount = e.store.clauses.count []

theorem Idle.tidy {e : Engine} (h : e.Idle) : e.Tidy where
  trail := h.trail
  processed := h.processed
  watches := h.watches_size
  watched := by
    intro id c hc hlen
    obtain ⟨w, hw⟩ := h.exists_watch hc
    have hwithin := h.within id c w hc hlen hw
    obtain ⟨a, ha⟩ : ∃ a, (c)[w.first]? = some a := ⟨_, List.getElem?_eq_getElem hwithin.1⟩
    obtain ⟨b, hb⟩ : ∃ b, (c)[w.second]? = some b := ⟨_, List.getElem?_eq_getElem hwithin.2.1⟩
    have hpairs : e.Pairs id a b := ⟨c, w, hc, hlen, hw, .inl ⟨ha, hb⟩⟩
    refine ⟨w, a, b, hw, hwithin.2.2, ha, hb, ?_⟩
    intro l
    have hmem : id ∈ rowOf e.watchers l ↔ l = a ∨ l = b := by
      rw [h.mem_row]
      simp only [hpairs.iff]
      grind
    rw [← Array.count_toList, (h.row_nodup l).count]
    simp only [Array.mem_toList_iff, hmem]
  listed := by
    intro l id hid
    obtain ⟨_, c, _, hc, hlen, _⟩ := (h.mem_row l id).1 hid
    exact ⟨c, hc, hlen⟩
  units := fun id => h.mem_units
  units_increasing := by
    rw [h.units, List.pairwise_map]
    exact e.store.pairwise_liveClauses.filter _
  empties := by
    rw [h.empties, Store.clauses, List.count, List.countP_map]
    apply List.countP_congr
    intro x _
    simp

/-- However an engine is used between two checks, it stays tidy, and it can be used as long as the
    number of its clauses is an identifier. -/
theorem performAll_tidy (n : Nat) (ops : List Operation) (hops : ∀ op ∈ ops, op.Within n) :
    (∀ e replies, (empty n).performAll ops = .ok (e, replies) →
      e.Tidy ∧ e.watches.size = additions ops) ∧
    (additions ops ≤ maxIdentifier →
      ∃ e replies, (empty n).performAll ops = .ok (e, replies)) := by
  have hsize : (empty n).store.size = 0 := rfl
  rcases (idle_empty n).performAll hops with ⟨f, replies, hrun, hf, _, hs⟩ | ⟨hrun, hlt⟩
  · refine ⟨?_, fun _ => ⟨f, replies, hrun⟩⟩
    intro e replies' he
    obtain ⟨rfl, _⟩ := Prod.mk.inj (Except.ok.inj (hrun.symm.trans he))
    refine ⟨hf.tidy, ?_⟩
    rw [hf.watches_size, hs, hsize, Nat.zero_add]
  · refine ⟨?_, fun hle => by omega⟩
    intro e replies he
    rw [hrun] at he
    cases he

/-- The refutation moves a watch of the first clause, which is deleted later. -/
def movingHistory : List Operation :=
  [.add [⟨1, false⟩, ⟨2, false⟩, ⟨3, false⟩] false, .refute [⟨1, false⟩, ⟨2, false⟩],
    .checkImplied [⟨2, false⟩, ⟨3, false⟩, ⟨1, false⟩] [] true,
    .delete [⟨3, false⟩, ⟨2, false⟩, ⟨1, false⟩], .add [] true]

theorem performAll_tidy_moving :
    (∀ op ∈ movingHistory, op.Within 3) ∧
    ∃ e, (empty 3).performAll movingHistory =
        .ok (e, [.added 0, .refuted .quiet, .implied .holds, .deleted (some 0), .added 1]) ∧
      e.Tidy ∧ e.watches.size = 2 := by
  have hops : ∀ op ∈ movingHistory, op.Within 3 := by decide
  obtain ⟨htidy, hruns⟩ := performAll_tidy 3 movingHistory hops
  obtain ⟨e, replies, he⟩ := hruns (by decide)
  have hreplies : ((empty 3).performAll movingHistory).map Prod.snd =
      .ok [.added 0, .refuted .quiet, .implied .holds, .deleted (some 0), .added 1] := by
    decide +kernel
  rw [he] at hreplies
  obtain rfl := Except.ok.inj hreplies
  exact ⟨hops, e, he, htidy e _ he⟩

end ClausalProof.Engine
