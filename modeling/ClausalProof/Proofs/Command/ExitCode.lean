import ClausalProof.Proofs.Command.Inputs
import ClausalProof.Proofs.Recheck
import ClausalProof.Proofs.Verdict.Toml

set_option autoImplicit false

/-!
The exit code of `drup` with a witness. Behind a rejection the program writes its witness and
re-checks it against its formula and its proof, which it reads a second time. With both in files,
packed or not, the re-check always passes, and the exit code is 1. From standard input nothing comes
the second time: a formula without a header is an error, and a proof without steps agrees with the
witness only if the proof that was checked adds nothing. The program then ends with the exit code of
an error.
-/
namespace ClausalProof.Command

open Environment Text

/-- A verdict is confirmed unless the second reading misses the formula, or additions of the proof. -/
theorem confirm_again {lib : Libraries} {e : Environment} {formula proof : String}
    {fs ps : List UInt8} {q : Problem} {v : Verdict} {mode : Mode}
    (hf : e.Supplies lib formula (again formula fs))
    (hp : e.Supplies lib proof (again proof ps)) (hdash : formula ≠ "-" ∨ proof ≠ "-")
    (hread : Problem.ofBytes fs ps = .ok q)
    (hcheck : checkProof q.formula q.proof ⟨mode, true⟩ = .ok v) (hv : v.outcome = .invalid) :
    ∃ b e₁, confirm lib formula proof v e = (.ok b, e₁) ∧
      (b = true ↔ ¬(formula = "-" ∨ proof = "-" ∧ Proof.additions q.proof ≠ [])) := by
  obtain ⟨hvf, hvp⟩ := Problem.valid_of_ofBytes hread
  by_cases hformula : formula = "-"
  · rw [again, if_pos hformula] at hf
    obtain ⟨e₁, he⟩ := confirm_eq_false hf hp hdash fun r hr => absurd hr Problem.ofBytes_nil_ne_ok
    exact ⟨false, e₁, he, by simp [hformula]⟩
  rw [again, if_neg hformula] at hf
  by_cases hproof : proof = "-"
  · rw [again, if_pos hproof] at hp
    obtain ⟨r, hr, hrf, hrp⟩ := Problem.ofBytes_without_proof hread
    by_cases hadds : Proof.additions q.proof = []
    · have hagain := recheck_again hvf hvp hcheck hv (.inr ⟨hrp, hadds⟩)
      obtain ⟨e₁, he⟩ := confirm_eq_true hf hp hdash hr (hrf ▸ hagain)
      exact ⟨true, e₁, he, by simp [hformula, hadds]⟩
    · have hnil := recheck_nil hvf hvp hcheck hv hadds
      obtain ⟨e₁, he⟩ := confirm_eq_false hf hp hdash fun r' hr' => by
        cases hr.symm.trans hr'
        rw [hrf, hrp]
        exact hnil
      exact ⟨false, e₁, he, by simp [hproof, hadds]⟩
  · rw [again, if_neg hproof] at hp
    have hagain := recheck_again hvf hvp hcheck hv (.inl rfl)
    obtain ⟨e₁, he⟩ := confirm_eq_true hf hp hdash hread hagain
    exact ⟨true, e₁, he, by simp [hformula, hproof]⟩

namespace Program

section

variable {α : Type} {x y : Program Unit}

/-- The program ends well, and prints at most. -/
def OnlyPrints (x : Program Unit) : Prop := ∀ e, ∃ e₁, outcome x e = (.ok (), e₁) ∧ e.SameSources e₁

theorem OnlyPrints.bind (hx : OnlyPrints x) (hy : OnlyPrints y) :
    OnlyPrints (x >>= fun _ => y) := by
  intro e
  obtain ⟨e₁, h₁, hsame₁⟩ := hx e
  obtain ⟨e₂, h₂, hsame₂⟩ := hy e₁
  exact ⟨e₂, (outcome_bind h₁).trans h₂, hsame₁.trans hsame₂⟩

theorem OnlyPrints.next (h : OnlyPrints x) (y : Program α) (e : Environment) :
    ∃ e₁, e.SameSources e₁ ∧ outcome (x >>= fun _ => y) e = outcome y e₁ := by
  obtain ⟨e₁, he, hsame⟩ := h e
  exact ⟨e₁, hsame, outcome_bind he⟩

theorem OnlyPrints.nextIf (h : OnlyPrints x) (c : Prop) [Decidable c] (y : Program α)
    (e : Environment) : ∃ e₁, e.SameSources e₁ ∧
      outcome (if c then x >>= fun _ => y else y) e = outcome y e₁ := by
  split
  · exact h.next y e
  · exact ⟨e, ⟨rfl, rfl⟩, rfl⟩

theorem onlyPrints_print (line : String) : OnlyPrints (print line) := fun _ =>
  ⟨_, outcome_lift rfl, rfl, rfl⟩

theorem onlyPrints_printAll (lines : List String) : OnlyPrints (printAll lines) := fun _ =>
  ⟨_, outcome_lift rfl, rfl, rfl⟩

theorem onlyPrints_printLabelled {label : String} (h : label.utf8ByteSize ≤ Report.maxLabel)
    (value : Nat) : OnlyPrints (printLabelled label value) := by
  have hrequire : require (label.utf8ByteSize ≤ Report.maxLabel) .labelLength = .ok () :=
    require_eq_ok.2 (decide_eq_true h)
  rw [printLabelled, Report.labelled, hrequire]
  exact onlyPrints_print _

theorem onlyPrints_printStatistics (s : Statistics) : OnlyPrints (printStatistics s) :=
  .bind (onlyPrints_printLabelled (by decide) _) <|
  .bind (onlyPrints_printLabelled (by decide) _) <|
  .bind (onlyPrints_printLabelled (by decide) _) <|
  .bind (onlyPrints_printLabelled (by decide) _) <|
  .bind (onlyPrints_printLabelled (by decide) _) (onlyPrints_printLabelled (by decide) _)

end

/-- How `drup` checks. -/
def drupFlags (a : Arguments) : Flags := ⟨if a.has "derivation" then .derivation else .full, true⟩

section

variable {lib : Libraries} {e e₁ e₂ : Environment} {a : Arguments} {q : Problem} {v : Verdict}
  {fs ps : List UInt8}

theorem outcome_writeWitness {formula proof witness text : String} {b : Bool}
    (htext : v.witnessText lib.toml = some text)
    (hwrite : writeFile witness text e = (.ok (), e₁))
    (hconfirm : confirm lib formula proof v e₁ = (.ok b, e₂)) :
    outcome (writeWitness lib formula proof witness v) e =
      (if b then .ok () else .error exitError, e₂) := by
  rw [writeWitness, htext]
  dsimp only
  rw [outcome_bind (outcome_lift hwrite)]
  dsimp only
  rw [outcome_bind (outcome_lift hconfirm), ofChecked, pure_bind]
  cases b <;> rfl

/-- A fault in its check ends `drup` at once. -/
theorem outcome_drup_fault {fault : Fault}
    (hload : load lib (a.positional 0) (a.positional 1) (a.has "verbose") e = (.ok q, e₁))
    (hrun : (do (← Session.start q.formula q.proof (drupFlags a)).run) = .error fault) :
    outcome (drup lib a) e = (.error exitFault, e₁) := by
  rw [drup, outcome_bind (outcome_lift hload)]
  dsimp only
  rw [drupFlags] at hrun
  rw [pure_bind, hrun]
  exact outcome_bind_error rfl

/-- After its check, `drup` only prints, and behind a rejection it deals with the witness. -/
theorem outcome_drup {s : Session} {witness : String} (hwitness : a.value? "witness" = some witness)
    (hload : load lib (a.positional 0) (a.positional 1) (a.has "verbose") e = (.ok q, e₁))
    (hrun : (do (← Session.start q.formula q.proof (drupFlags a)).run) = .ok (s, v)) :
    ∃ e₂, e₁.SameSources e₂ ∧ outcome (drup lib a) e = outcome
      (if v.isValid then pure 0
      else do
        writeWitness lib (a.positional 0) (a.positional 1) witness v
        return 1) e₂ := by
  rw [drup, outcome_bind (outcome_lift hload)]
  dsimp only
  rw [drupFlags] at hrun
  rw [pure_bind, hrun, ofChecked, pure_bind]
  dsimp only
  rw [hwitness]
  -- every line that is printed gives a new environment with the same sources
  obtain ⟨e₂, h₂, hevents⟩ :=
    (onlyPrints_printAll (s.events.toList.map Event.text)).nextIf (a.has "verbose") _ e₁
  rw [hevents]
  obtain ⟨e₃, h₃, hstatistics⟩ := (onlyPrints_printStatistics s.statistics).next _ e₂
  rw [hstatistics]
  split
  · obtain ⟨e₄, h₄, hprint⟩ := (onlyPrints_print (Report.solution "VERIFIED")).next (pure 0) e₃
    exact ⟨e₄, (h₂.trans h₃).trans h₄, hprint⟩
  · obtain ⟨e₄, h₄, hfailure⟩ := (onlyPrints_printAll _).next _ e₃
    obtain ⟨e₅, h₅, hprint⟩ := (onlyPrints_print (Report.solution "NOT VERIFIED")).next _ e₄
    exact ⟨e₅, ((h₂.trans h₃).trans h₄).trans h₅, hfailure.trans hprint⟩

/-- A call of `drup` that can read its formula and its proof, not both from standard input, and can
    write a witness to a file other than these. -/
structure Served (lib : Libraries) (e : Environment) (a : Arguments) (fs ps : List UInt8) : Prop where
  formula : e.Supplies lib (a.positional 0) fs
  proof : e.Supplies lib (a.positional 1) ps
  dash : a.positional 0 ≠ "-" ∨ a.positional 1 ≠ "-"
  witness : ∃ witness place, a.value? "witness" = some witness ∧
    e.folder.placeFor witness = .ok place ∧
    ∀ name ∈ [a.positional 0, a.positional 1], name ≠ "-" → Place.ofName name ≠ place

/-- The sources after both have been read and another file has been written. -/
theorem supplies_again {place : Place} {formula proof name : String} {bytes : List UInt8}
    (hname : name ∈ [formula, proof]) (h : e.Supplies lib name bytes)
    (hother : name ≠ "-" → Place.ofName name ≠ place)
    (hsame : ((e.afterReading formula).afterReading proof).SameSources e₁)
    (hinput : e₂.input = e₁.input)
    (hfiles : ∀ other node, Place.ofName other ≠ place → e₁.folder.find other = .ok node →
      e₂.folder.find other = .ok node) : e₂.Supplies lib name (again name bytes) := by
  obtain ⟨hfolder, hleft⟩ := hsame
  unfold Supplies at *
  by_cases hdash : name = "-"
  · -- standard input was emptied by one of the two readings
    rw [if_pos hdash, hinput, hleft]
    rcases List.mem_pair.1 hname with rfl | rfl <;> simp [afterReading, again, hdash]
  · rw [if_neg hdash] at h
    obtain ⟨stored, hfind, hcontents⟩ := h
    rw [if_neg hdash, again, if_neg hdash]
    exact ⟨stored, hfiles _ _ (hother hdash) (hfolder ▸ hfind), hcontents⟩

theorem Served.outcome_drup (h : Served lib e a fs ps) (hread : Problem.ofBytes fs ps = .ok q)
    (hcheck : checkProof q.formula q.proof (drupFlags a) = .ok v) {witness : String}
    (hwitness : a.value? "witness" = some witness) :
    ∃ e₁, ((e.afterReading (a.positional 0)).afterReading (a.positional 1)).SameSources e₁ ∧
      outcome (drup lib a) e = outcome
        (if v.isValid then pure 0
        else do
          writeWitness lib (a.positional 0) (a.positional 1) witness v
          return 1) e₁ := by
  obtain ⟨e₁, hload, hsame₁⟩ := load_eq h.formula h.proof h.dash hread (a.has "verbose")
  rw [checkProof_eq_map] at hcheck
  rcases hrun : (do (← Session.start q.formula q.proof (drupFlags a)).run) with fault | ⟨s, w⟩
  · rw [hrun] at hcheck
    cases hcheck
  · rw [hrun] at hcheck
    cases hcheck
    obtain ⟨e₂, hsame₂, hdrup⟩ := Program.outcome_drup hwitness hload hrun
    exact ⟨e₂, hsame₁.trans hsame₂, hdrup⟩

/-- The witness of a rejection is written and re-checked. -/
theorem Served.outcome_writeWitness (hlib : lib.toml.Documented) (h : Served lib e a fs ps)
    (hread : Problem.ofBytes fs ps = .ok q)
    (hcheck : checkProof q.formula q.proof (drupFlags a) = .ok v) (hv : v.outcome = .invalid)
    (hsteps : q.proof.length ≤ 9223372036854775807) {witness : String}
    (hwitness : a.value? "witness" = some witness)
    (hsame : ((e.afterReading (a.positional 0)).afterReading (a.positional 1)).SameSources e₁) :
    ∃ e₂, outcome (writeWitness lib (a.positional 0) (a.positional 1) witness v) e₁ =
      (if a.positional 0 = "-" ∨ a.positional 1 = "-" ∧ Proof.additions q.proof ≠ [] then
        .error exitError
      else .ok (), e₂) := by
  obtain ⟨name, place, hname, hplace, hother⟩ := h.witness
  obtain rfl := Option.some.inj (hname.symm.trans hwitness)
  obtain ⟨hvf, hvp⟩ := Problem.valid_of_ofBytes hread
  obtain ⟨hliterals, hstep⟩ := shows_of_checkProof hvf hvp hcheck
  obtain ⟨text, htext⟩ := Verdict.exists_witnessText hliterals
    (fun n hn => Nat.le_trans (hstep n hn) hsteps) hlib
  obtain ⟨e₂, hwrite, hinput, hfiles⟩ := writeFile_eq (hsame.1 ▸ hplace) text
  have hmem₀ : a.positional 0 ∈ [a.positional 0, a.positional 1] := by simp
  have hmem₁ : a.positional 1 ∈ [a.positional 0, a.positional 1] := by simp
  have hf := supplies_again hmem₀ h.formula (hother _ hmem₀) hsame hinput hfiles
  have hp := supplies_again hmem₁ h.proof (hother _ hmem₁) hsame hinput hfiles
  obtain ⟨b, e₃, hconfirm, hb⟩ := confirm_again hf hp h.dash hread hcheck hv
  refine ⟨e₃, (Program.outcome_writeWitness htext hwrite hconfirm).trans ?_⟩
  simp only [hb, ite_not]

theorem run_drup_invalid {args : List String} (hlib : lib.toml.Documented)
    (hargs : lib.arguments drupUsage args = .ok a) (h : Served lib e a fs ps)
    (hread : Problem.ofBytes fs ps = .ok q) (hsteps : q.proof.length ≤ 9223372036854775807)
    (hcheck : checkProof q.formula q.proof (drupFlags a) = .ok v) (hv : v.outcome = .invalid) :
    (run lib "drup" args e).1 =
      if a.positional 0 = "-" ∨ a.positional 1 = "-" ∧ Proof.additions q.proof ≠ [] then exitError
      else 1 := by
  obtain ⟨witness, _, hwitness, _⟩ := h.witness
  obtain ⟨e₁, hsame, hdrup⟩ := h.outcome_drup hread hcheck hwitness
  obtain ⟨e₂, hwrite⟩ := h.outcome_writeWitness hlib hread hcheck hv hsteps hwitness hsame
  have hinvalid : v.isValid = false := by simp [Verdict.isValid, hv]
  rw [hinvalid, if_neg Bool.false_ne_true] at hdrup
  by_cases hmissing : a.positional 0 = "-" ∨ a.positional 1 = "-" ∧ Proof.additions q.proof ≠ []
  · rw [if_pos hmissing] at hwrite ⊢
    rw [run_eq rfl hargs (hdrup.trans (outcome_bind_error hwrite))]
    rfl
  · rw [if_neg hmissing] at hwrite ⊢
    rw [run_eq rfl hargs (hdrup.trans (outcome_bind hwrite))]
    rfl

/-- A name of one character other than a slash is its only part. -/
theorem splitOn_slash {s : String} (h : String.Pos.Raw.atEnd s 0 = false ∧
    String.Pos.Raw.get s 0 ≠ '/' ∧ String.Pos.Raw.atEnd s (String.Pos.Raw.next s 0) = true ∧
    String.Pos.Raw.extract s 0 (String.Pos.Raw.next s 0) = s) : s.splitOn "/" = [s] := by
  obtain ⟨hstart, hget, hend, hs⟩ := h
  have hsep : String.Pos.Raw.get "/" 0 = '/' := by decide +kernel
  have hother : (String.Pos.Raw.get s 0 == String.Pos.Raw.get "/" 0) = false := by
    rw [hsep]
    exact beq_false_of_ne hget
  have hrest : String.splitOnAux s "/" 0 (String.Pos.Raw.next s 0) 0 [] = [s] := by
    rw [String.splitOnAux]
    simp [hend, hs]
  rw [String.splitOn, if_neg (by decide), String.splitOnAux, hstart, hother]
  exact hrest

/-- The exit code of `drup` is 0 for a proof that it accepts and 1 for one that it rejects, but 2 for
    a rejection whose witness it cannot confirm: if the formula comes from standard input, or if the
    proof does and adds a clause. Too many clauses are a fault. So it is however arguments are read
    and archives unpacked. -/
theorem run_drup_served {lib : Libraries} {args : List String} {a : Arguments} {e : Environment}
    {fs ps : List UInt8} {q : Problem} (hlib : lib.toml.Documented)
    (hargs : lib.arguments drupUsage args = .ok a) (h : Served lib e a fs ps)
    (hread : Problem.ofBytes fs ps = .ok q) (hsteps : q.proof.length ≤ 9223372036854775807) :
    (∃ v, checkProof q.formula q.proof (drupFlags a) = .ok v ∧
      (v.outcome = .valid → (run lib "drup" args e).1 = 0) ∧
      (v.outcome = .invalid → (run lib "drup" args e).1 =
        if a.positional 0 = "-" ∨ a.positional 1 = "-" ∧ Proof.additions q.proof ≠ [] then exitError
        else 1)) ∨
    (checkProof q.formula q.proof (drupFlags a) = .error .identifierRange ∧
      maxIdentifier + 1 < q.formula.length + (Proof.additions q.proof).length ∧
      (run lib "drup" args e).1 = exitFault) := by
  obtain ⟨hf, hp⟩ := Problem.valid_of_ofBytes hread
  rcases checkProof_cases hf hp (drupFlags a) with hok | ⟨herror, hlt⟩
  · refine .inl ⟨_, hok, fun hv => ?_, run_drup_invalid hlib hargs h hread hsteps hok⟩
    obtain ⟨witness, _, hwitness, _⟩ := h.witness
    obtain ⟨e₁, _, hdrup⟩ := h.outcome_drup hread hok hwitness
    rw [Verdict.isValid, hv] at hdrup
    rw [run_eq rfl hargs hdrup]
    rfl
  · obtain ⟨e₁, hload, _⟩ := load_eq h.formula h.proof h.dash hread (a.has "verbose")
    refine .inr ⟨herror, hlt, ?_⟩
    rw [checkProof_eq_map] at herror
    rcases hrun : (do (← Session.start q.formula q.proof (drupFlags a)).run) with fault | ⟨s, w⟩
    · rw [run_eq rfl hargs (outcome_drup_fault hload hrun)]
      rfl
    · rw [hrun] at herror
      cases herror

/-- From files, the second step of a derivation is rejected with evidence of both kinds. -/
theorem run_drup_served_files : ∃ v,
    checkProof (Check.formulaOf [[1, 2], [-1, 2]]) (Check.proofOf [.add [2], .add [-2]])
      ⟨.derivation, true⟩ = .ok v ∧ v.step = some 2 ∧
    (run .builtIn "drup" ["-d", "-w", "w", "f", "p"]
      ⟨.ofFiles [("f", encodeUtf8 "p cnf 2 2\n1 2 0\n-1 2 0\n"), ("p", encodeUtf8 "2 0\n-2 0\n")], [],
        #[]⟩).1 = 1 := by
  have hargs : Libraries.builtIn.arguments drupUsage ["-d", "-w", "w", "f", "p"] =
      .ok ⟨["f", "p"], [("witness", some "w"), ("derivation", none)]⟩ := by decide +kernel
  have hf : "f".splitOn "/" = ["f"] := splitOn_slash (by decide +kernel)
  have hp : "p".splitOn "/" = ["p"] := splitOn_slash (by decide +kernel)
  have hw : "w".splitOn "/" = ["w"] := splitOn_slash (by decide +kernel)
  have hslash : Folder.withoutSlashes "w" = "w" := by decide +kernel
  have hserved : Served .builtIn ⟨.ofFiles [("f", encodeUtf8 "p cnf 2 2\n1 2 0\n-1 2 0\n"),
      ("p", encodeUtf8 "2 0\n-2 0\n")], [], #[]⟩
      ⟨["f", "p"], [("witness", some "w"), ("derivation", none)]⟩
      (encodeUtf8 "p cnf 2 2\n1 2 0\n-1 2 0\n") (encodeUtf8 "2 0\n-2 0\n") := by
    refine ⟨?_, ?_, by decide, "w", ["w"], rfl, ?_, ?_⟩
    · refine Environment.supplies_of_find (by decide) (by decide +kernel) ?_
      change Folder.find _ "f" = _
      simp only [Folder.find, Folder.ofFiles, List.map, Place.ofName, hf, hp]
      decide +kernel
    · refine Environment.supplies_of_find (by decide) (by decide +kernel) ?_
      change Folder.find _ "p" = _
      simp only [Folder.find, Folder.ofFiles, List.map, Place.ofName, hf, hp]
      decide +kernel
    · simp only [Folder.placeFor, Folder.ofFiles, List.map, Place.ofName, hf, hp, hslash, hw]
      decide +kernel
    · change ∀ name ∈ ["f", "p"], _
      simp only [List.forall_mem_cons, Place.ofName, hf, hp]
      decide +kernel
  have hread : Problem.ofBytes (encodeUtf8 "p cnf 2 2\n1 2 0\n-1 2 0\n") (encodeUtf8 "2 0\n-2 0\n") =
      .ok ⟨2, some ⟨2, 2⟩, Check.formulaOf [[1, 2], [-1, 2]], Check.proofOf [.add [2], .add [-2]]⟩ := by
    decide +kernel
  have hcheck : checkProof (Check.formulaOf [[1, 2], [-1, 2]]) (Check.proofOf [.add [2], .add [-2]])
      ⟨.derivation, true⟩ = .ok ⟨.invalid, some 2, some [[⟨2, false⟩]], some ⟨[⟨2, true⟩], [⟨2, false⟩]⟩,
        some ⟨[⟨2, true⟩], [⟨1, false⟩, ⟨2, false⟩], ⟨[⟨2, true⟩], [⟨1, true⟩, ⟨2, false⟩]⟩⟩⟩ := by
    decide +kernel
  rcases run_drup_served Toml.builtIn_documented hargs hserved hread (by decide) with
    ⟨v, hv, _, hcode⟩ | ⟨herror, _⟩
  · obtain rfl := Except.ok.inj (hcheck.symm.trans hv)
    exact ⟨_, hcheck, rfl, hcode rfl⟩
  · cases hcheck.symm.trans herror

/-- From standard input, the proof is not there for the witness of its rejection. -/
theorem run_drup_from_input :
    Problem.ofBytes (encodeUtf8 "p cnf 1 1\n1 0\n") (encodeUtf8 "0\n") =
      .ok ⟨1, some ⟨1, 1⟩, Check.formulaOf [[1]], Check.proofOf [.add []]⟩ ∧
    (∃ v, checkProof (Check.formulaOf [[1]]) (Check.proofOf [.add []]) ⟨.full, true⟩ = .ok v ∧
      v.outcome = .invalid) ∧
    (run .builtIn "drup" ["-w", "w", "f", "-"]
      ⟨.ofFiles [("f", encodeUtf8 "p cnf 1 1\n1 0\n")], encodeUtf8 "0\n", #[]⟩).1 = 2 := by
  have hargs : Libraries.builtIn.arguments drupUsage ["-w", "w", "f", "-"] =
      .ok ⟨["f", "-"], [("witness", some "w")]⟩ := by decide +kernel
  have hf : "f".splitOn "/" = ["f"] := splitOn_slash (by decide +kernel)
  have hw : "w".splitOn "/" = ["w"] := splitOn_slash (by decide +kernel)
  have hslash : Folder.withoutSlashes "w" = "w" := by decide +kernel
  have hserved : Served .builtIn ⟨.ofFiles [("f", encodeUtf8 "p cnf 1 1\n1 0\n")], encodeUtf8 "0\n", #[]⟩
      ⟨["f", "-"], [("witness", some "w")]⟩ (encodeUtf8 "p cnf 1 1\n1 0\n") (encodeUtf8 "0\n") := by
    refine ⟨?_, rfl, by decide, "w", ["w"], rfl, ?_, ?_⟩
    · refine Environment.supplies_of_find (by decide) (by decide +kernel) ?_
      change Folder.find _ "f" = _
      simp only [Folder.find, Folder.ofFiles, List.map, Place.ofName, hf]
      decide +kernel
    · simp only [Folder.placeFor, Folder.ofFiles, List.map, Place.ofName, hf, hslash, hw]
      decide +kernel
    · change ∀ name ∈ ["f", "-"], _
      simp only [List.forall_mem_cons, Place.ofName, hf]
      decide +kernel
  have hread : Problem.ofBytes (encodeUtf8 "p cnf 1 1\n1 0\n") (encodeUtf8 "0\n") =
      .ok ⟨1, some ⟨1, 1⟩, Check.formulaOf [[1]], Check.proofOf [.add []]⟩ := by decide +kernel
  have hcheck : checkProof (Check.formulaOf [[1]]) (Check.proofOf [.add []]) ⟨.full, true⟩ =
      .ok ⟨.invalid, some 1, some [], some ⟨[], [⟨1, false⟩]⟩, none⟩ := by decide +kernel
  refine ⟨hread, ⟨_, hcheck, rfl⟩, ?_⟩
  exact run_drup_invalid Toml.builtIn_documented hargs hserved hread (by decide) hcheck rfl

end

end Program
end ClausalProof.Command
