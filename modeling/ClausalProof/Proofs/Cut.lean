import ClausalProof.Proofs.Acceptance
import ClausalProof.Proofs.Recheck
import ClausalProof.Proofs.Text.Listing

set_option autoImplicit false

/-!
A run can be cut behind any accepted prefix of its proof. A fresh run on the clauses that are live
there, with the rest of the proof, comes to the same verdict with the same evidence, and the texts
of both parts are read back as they are.
-/
namespace ClausalProof

open Text Command

/-- The verdict on a proof that starts with `q`, from the verdict on its rest. -/
def Verdict.after (q : Proof) (w : Verdict) : Verdict :=
  { w with
    step := w.step.map (q.length + ·)
    accepted := w.accepted.map (Proof.additions q ++ ·) }

theorem Plain.advance_after (mode : Mode) (cs : List Clause) (q : Proof) (accepted : List Clause)
    (i : Nat) (r : Proof) :
    advance mode cs (Proof.additions q ++ accepted) (q.length + i) r =
      (advance mode cs accepted i r).after q := by
  induction r generalizing cs accepted i with
  | nil => cases mode <;> rfl
  | cons step r ih =>
    cases step with
    | delete c => exact ih (delete cs c) accepted (i + 1)
    | add c =>
      simp only [advance]
      cases objection? cs c with
      | some objection => rfl
      | none =>
        dsimp only
        split
        · rfl
        · rw [List.append_assoc]
          exact ih (add cs c) (accepted ++ [c]) (i + 1)

namespace Store

/-- A fresh run loads the live clauses as they are. -/
theorem Indexed.map_eraseDups_clauses {s : Store} (h : s.Indexed) :
    s.clauses.map List.eraseDups = s.clauses := by
  have hsame : ∀ c ∈ s.clauses, c.eraseDups = id c :=
    fun c hc => Clause.eraseDups_of_nodup (h.nodup_clauses c hc)
  rw [List.map_congr_left hsame, List.map_id]

theorem length_clauses_le (s : Store) : s.clauses.length ≤ s.size := by
  rw [clauses, List.length_map, liveClauses]
  refine Nat.le_trans (List.length_filterMap_le _ _) ?_
  rw [List.length_zipIdx, entries, Buffer.entries, List.length_map, List.length_range]
  exact Nat.le_refl s.size

theorem valid_clauses {f : Formula} {p q : Proof} {s : Store} (hf : f.Valid) (hp : p.Valid)
    (hq : q <+: p) (h : replay f q = .ok s) : Formula.Valid s.clauses :=
  fun d hd l hl => ((Recheck.within_of_replay hf hp hq h).2 d hd l hl).1

end Store

/-- The live clauses are counted for the header by the store and listed by a scan of it. -/
theorem Command.Program.splitTexts_eq {f : Formula} {p : Proof} {n : Nat} {s : Store} (maxVar : Nat)
    (header : Option Header) (h : Store.replay f (p.take n) = .ok s) (hsize : s.size ≤ maxIdentifier) :
    splitTexts ⟨maxVar, header, f, p⟩ n =
      .ok (formulaText maxVar s.clauses.length s.clauses, proofText (p.drop n)) := by
  obtain ⟨hindexed, _⟩ := Store.replay_clauses h
  refine Checked.bind_eq_ok.2 ⟨s, h, Checked.bind_eq_ok.2 ⟨_, hindexed.scan hsize, ?_⟩⟩
  rw [← hindexed.live_eq]
  rfl

namespace Session

variable {f : Formula} {q r : Proof} {mode : Mode} {s t : Session}

theorem Accepts.plain_check (h : s.processing.Accepts q t) (hs : Loaded f (q ++ r) ⟨mode, true⟩ s)
    (hp : Proof.Valid (q ++ r)) (hfree : mode = .full → Step.add [] ∉ q) :
    Plain.check f (q ++ r) mode = (Plain.check t.engine.store.clauses r mode).after q := by
  have hwithin := hs.within_prefix hp (List.prefix_append q r)
  have hmode : s.flags.mode = mode := congrArg Flags.mode hs.flags
  obtain ⟨hkeeps, _⟩ := h.keeps hs.idle hwithin
  have hmode' : t.flags.mode = mode := (congrArg Flags.mode hkeeps.flags).trans hmode
  have hadvance := (h.advance hs.idle hwithin (fun hm => hfree (hmode.symm.trans hm)) [] 1 r).2
  change Plain.advance s.flags.mode s.engine.store.clauses [] 1 (q ++ r) = _ at hadvance
  rw [hmode, hs.clauses.1, hmode', List.nil_append, Nat.add_comm] at hadvance
  rw [Plain.check, hadvance, Plain.check, hkeeps.idle.indexed.map_eraseDups_clauses,
    ← Plain.advance_after, List.append_nil]

/-- Clauses that are no longer live need no identifiers in a fresh run. -/
theorem Accepts.identifiers_le (h : s.processing.Accepts q t) (hs : Loaded f (q ++ r) ⟨mode, true⟩ s)
    (hp : Proof.Valid (q ++ r)) (hfree : mode = .full → Step.add [] ∉ q) :
    t.engine.store.clauses.length + Plain.demanded ⟨mode, true⟩ t.engine.store.clauses r ≤
      f.length + Plain.demanded ⟨mode, true⟩ (f.map List.eraseDups) (q ++ r) := by
  have hprefix := List.prefix_append q r
  have hreplay := hs.replay hp hprefix h
  have hunopposed := h.unopposed hs.idle (hs.within_prefix hp hprefix)
  change Plain.Unopposed s.engine.store.clauses q at hunopposed
  rw [hs.clauses.1] at hunopposed
  have hcount := hunopposed.demanded_append ⟨mode, true⟩ hfree r
  rw [← (Store.replay_clauses hreplay).2] at hcount
  have hlength := t.engine.store.length_clauses_le
  rw [Store.size_replay hreplay] at hlength
  omega

/-- A verdict on a proof with an accepted prefix, from the clauses that are live behind the prefix. -/
theorem Accepts.checkProof_drop {v : Verdict} (h : s.processing.Accepts q t)
    (hs : Loaded f (q ++ r) ⟨mode, true⟩ s) (hf : f.Valid) (hp : Proof.Valid (q ++ r))
    (hfree : mode = .full → Step.add [] ∉ q) (hv : checkProof f (q ++ r) ⟨mode, true⟩ = .ok v) :
    ∃ w, checkProof t.engine.store.clauses r ⟨mode, true⟩ = .ok w ∧ v = w.after q := by
  have hprefix := List.prefix_append q r
  have hreplay := hs.replay hp hprefix h
  have hids := h.identifiers_le hs hp hfree
  rw [checkProof_eq hf hp] at hv
  split at hv
  · rename_i hle
    refine ⟨Plain.check t.engine.store.clauses r mode, ?_, ?_⟩
    · have hr : Proof.Valid r := fun step hstep => hp step (List.mem_append_right q hstep)
      rw [checkProof_eq (Store.valid_clauses hf hp hprefix hreplay) hr,
        (Store.replay_clauses hreplay).1.map_eraseDups_clauses, if_pos (Nat.le_trans hids hle)]
      rfl
    · rw [← h.plain_check hs hp hfree]
      exact (Except.ok.inj hv).symm
  · cases hv

end Session

/-- Behind an accepted prefix of its proof, which adds no empty clause if that would end it, a run goes
    on as a fresh one on the live clauses. The two texts of a problem that is split there are read back
    as these clauses, with their number in the header, and the rest of the proof. -/
theorem run_cut (f : Formula) (p : Proof) (mode : Mode) (n : Nat) (hf : f.Valid) (hp : p.Valid)
    (s t : Session) (hs : Session.start f p ⟨mode, true⟩ = .ok s)
    (ha : s.processing.Accepts (p.take n) t) (hfree : mode = .full → Step.add [] ∉ p.take n) :
    ∃ store, Store.replay f (p.take n) = .ok store ∧
      (∀ v, checkProof f p ⟨mode, true⟩ = .ok v →
        ∃ w, checkProof store.clauses (p.drop n) ⟨mode, true⟩ = .ok w ∧ v = w.after (p.take n)) ∧
      (f.length + (Proof.additions p).length ≤ maxIdentifier + 1 →
        ∃ v, checkProof f p ⟨mode, true⟩ = .ok v) ∧
      ∀ maxVar header, maxVar ≤ maxVariable →
        f.length + (Proof.additions (p.take n)).length ≤ maxIdentifier →
        ∃ formula proof, Program.splitTexts ⟨maxVar, header, f, p⟩ n = .ok (formula, proof) ∧
          Problem.empty.readFormula (encodeUtf8 formula) =
            (⟨Formula.maxVar store.clauses, some ⟨maxVar, store.clauses.length⟩, store.clauses, []⟩,
              none) ∧
          Problem.empty.readProof (encodeUtf8 proof) =
            (⟨Proof.maxVar (p.drop n), none, [], p.drop n⟩, none) := by
  have hprefix := List.take_prefix n p
  obtain ⟨_, hloaded⟩ := Session.loaded_of_start hf hs
  have hreplay := hloaded.replay hp hprefix ha
  have hvalid := Store.valid_clauses hf hp hprefix hreplay
  have hdrop : Proof.Valid (p.drop n) := fun step hstep => hp step (List.mem_of_mem_drop hstep)
  refine ⟨t.engine.store, hreplay, ?_, ?_, ?_⟩
  · rw [← List.take_append_drop n p] at hloaded hp
    intro v hv
    rw [← List.take_append_drop n p] at hv
    exact ha.checkProof_drop hloaded hf hp hfree hv
  · intro hsize
    rcases checkProof_cases hf hp ⟨mode, true⟩ with hok | ⟨_, hlt⟩
    · exact ⟨_, hok⟩
    · omega
  · intro maxVar header hmax hsize
    rw [← Store.size_replay hreplay] at hsize
    have hcount : t.engine.store.clauses.length ≤ maxNumber :=
      Nat.le_trans t.engine.store.length_clauses_le (Nat.le_trans hsize (by decide))
    refine ⟨_, _, Program.splitTexts_eq maxVar header hreplay hsize, ?_, ?_⟩
    · rw [Program.formulaText, Problem.readFormula_text _ hvalid hmax hcount]
      simp [Problem.empty]
    · rw [Problem.readProof_proofText _ hdrop]
      simp [Problem.empty]

/-- The third step is rejected with the same evidence when it is the first one, behind the clause that
    the first step adds and without the one that the second deletes. The split texts say the same. -/
theorem run_cut_rejection :
    (∃ v w, checkProof (Check.formulaOf [[1, 2], [-1, 2], [-2, 3, 3]])
        (Check.proofOf [.add [2], .delete [2, 1], .add [-3]]) ⟨.derivation, true⟩ = .ok v ∧
      checkProof (Check.formulaOf [[-1, 2], [-2, 3], [2]]) (Check.proofOf [.add [-3]])
        ⟨.derivation, true⟩ = .ok w ∧
      v = w.after (Check.proofOf [.add [2], .delete [2, 1]]) ∧ v.step = some 3) ∧
    Problem.empty.readFormula (encodeUtf8 "p cnf 3 3\n-1 2 0\n-2 3 0\n2 0\n") =
      (⟨3, some ⟨3, 3⟩, Check.formulaOf [[-1, 2], [-2, 3], [2]], []⟩, none) ∧
    Problem.empty.readProof (encodeUtf8 "-3 0\n") =
      (⟨3, none, [], Check.proofOf [.add [-3]]⟩, none) := by
  let f := Check.formulaOf [[1, 2], [-1, 2], [-2, 3, 3]]
  let p := Check.proofOf [.add [2], .delete [2, 1], .add [-3]]
  have hf : f.Valid := Check.valid_formulaOf (by decide)
  have hp : p.Valid := Check.valid_proofOf (by decide)
  have hsteps : (do
      let s ← Session.start f p ⟨.derivation, true⟩
      let (s, rejection) ← s.processing.introduce [⟨2, false⟩]
      let _ ← s.delete [⟨2, false⟩, ⟨1, false⟩]
      return rejection) = .ok none := by decide +kernel
  obtain ⟨s, hs, hsteps⟩ := Checked.bind_eq_ok.1 hsteps
  obtain ⟨⟨u, rejection⟩, hu, hsteps⟩ := Checked.bind_eq_ok.1 hsteps
  obtain ⟨t, ht, hsteps⟩ := Checked.bind_eq_ok.1 hsteps
  obtain rfl := Checked.pure_eq_ok.1 hsteps
  have ha : s.processing.Accepts (p.take 2) t := .next hu (.next ht (.done t))
  obtain ⟨store, hstore, hcut, hreturns, htexts⟩ :=
    run_cut f p .derivation 2 hf hp s t hs ha (by simp)
  have hclauses : store.clauses = Check.formulaOf [[-1, 2], [-2, 3], [2]] := by
    rw [(Store.replay_clauses hstore).2]
    decide +kernel
  rw [hclauses] at hcut htexts
  obtain ⟨v, hv⟩ := hreturns (by decide)
  obtain ⟨w, hw, hafter⟩ := hcut v hv
  obtain ⟨formula, proof, hsplit, hformula, hproof⟩ := htexts 3 none (by decide) (by decide)
  have hwritten : Program.splitTexts ⟨3, none, f, p⟩ 2 =
      .ok ("p cnf 3 3\n-1 2 0\n-2 3 0\n2 0\n", "-3 0\n") := by decide +kernel
  obtain ⟨rfl, rfl⟩ := Prod.mk.inj (Except.ok.inj (hwritten.symm.trans hsplit))
  refine ⟨⟨v, w, hv, hw, hafter, ?_⟩, hformula, hproof⟩
  rcases checkProof_cases hf hp ⟨.derivation, true⟩ with hok | ⟨herror, _⟩
  · rw [Except.ok.inj (hv.symm.trans hok)]
    decide +kernel
  · cases hv.symm.trans herror

end ClausalProof
