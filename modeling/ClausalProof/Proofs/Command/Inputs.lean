import ClausalProof.Proofs.Command.Folder
import ClausalProof.Proofs.Command.Programs
import ClausalProof.Proofs.Text.Grammar

set_option autoImplicit false

/-!
What a program reads. Nothing is left of standard input once it has been read, files stay as they
are, and the file that is written to is another one: so a source that is read twice gives the same
bytes again if it is a file, packed or not, and nothing if it is standard input.
-/
namespace ClausalProof

namespace Problem

variable {fs ps : List UInt8} {q : Problem}

theorem ofBytes_eq_ok : ofBytes fs ps = .ok q ↔
    ∃ p, Problem.empty.readFormula fs = (p, none) ∧ p.readProof ps = (q, none) := by
  have hcut {ε α : Type} {wrap : Text.TextError → ε} {x : α × Option Text.TextError} {a : α} :
      unlessCut wrap x = .ok a ↔ x = (a, none) := by
    rcases x with ⟨b, _ | e⟩ <;> simp [unlessCut]
  simp only [ofBytes, Command.bind_eq_ok, hcut]

theorem ofBytes_eq_ok_iff_written : ofBytes fs ps = .ok q ↔
    ∃ header f p, Formula.Written header f fs ∧ Proof.Written .proof p ps ∧
      q = ⟨max f.maxVar p.maxVar, some header, f, p⟩ := by
  simp only [ofBytes_eq_ok, readFormula_eq_iff, readProof_eq_iff]
  constructor
  · rintro ⟨_, ⟨header, f, hf, rfl⟩, p, hp, rfl⟩
    exact ⟨header, f, p, hf, hp, by simp [empty]⟩
  · rintro ⟨header, f, p, hf, hp, rfl⟩
    exact ⟨_, ⟨header, f, hf, rfl⟩, p, hp, by simp [empty]⟩

theorem valid_of_ofBytes (h : ofBytes fs ps = .ok q) : q.formula.Valid ∧ q.proof.Valid := by
  obtain ⟨header, f, p, hf, hp, rfl⟩ := ofBytes_eq_ok_iff_written.1 h
  exact ⟨hf.valid, hp.valid⟩

/-- Nothing is no formula: its header is missing. -/
theorem ofBytes_nil_ne_ok : ofBytes [] ps ≠ .ok q := by
  intro h
  obtain ⟨header, f, p, ⟨start, rest, hbytes, hstart, _⟩, _⟩ := ofBytes_eq_ok_iff_written.1 h
  exact hstart.ne_nil (List.append_eq_nil_iff.1 hbytes.symm).1

/-- Nothing is a proof without steps. -/
theorem ofBytes_without_proof (h : ofBytes fs ps = .ok q) :
    ∃ r, ofBytes fs [] = .ok r ∧ r.formula = q.formula ∧ r.proof = [] := by
  obtain ⟨header, f, p, hf, _, rfl⟩ := ofBytes_eq_ok_iff_written.1 h
  exact ⟨_, ofBytes_eq_ok_iff_written.2 ⟨header, f, [], hf, .nil, rfl⟩, rfl, rfl⟩

end Problem

namespace Command

/-- What a source gives when it is read once more. -/
def again (name : String) (bytes : List UInt8) : List UInt8 := if name = "-" then [] else bytes

namespace Environment

variable {lib : Libraries} {e e₁ e₂ : Environment} {name other : String} {bytes : List UInt8}

/-- A file has these contents, once it is unpacked, or standard input has them if the name is a
    dash. -/
def Supplies (e : Environment) (lib : Libraries) (name : String) (bytes : List UInt8) : Prop :=
  if name = "-" then e.input = bytes
  else ∃ stored, e.folder.find name = .ok (.file stored) ∧ lib.contents name stored = .ok bytes

/-- A file that is not packed supplies what is stored in it. -/
theorem supplies_of_find (hname : name ≠ "-") (hplain : Archive.ofName? name = none)
    (h : e.folder.find name = .ok (.file bytes)) : e.Supplies lib name bytes := by
  rw [Supplies, if_neg hname]
  refine ⟨bytes, h, ?_⟩
  rw [Libraries.contents, hplain]

def afterReading (e : Environment) (name : String) : Environment :=
  { e with input := again name e.input }

theorem Supplies.afterReading (h : e.Supplies lib name bytes) (hother : other ≠ "-" ∨ name ≠ "-") :
    (e.afterReading other).Supplies lib name bytes := by
  unfold Supplies at *
  split
  · rename_i hname
    rw [if_pos hname] at h
    rw [Environment.afterReading, again, if_neg (hother.resolve_right (not_not_intro hname))]
    exact h
  · rename_i hname
    rw [if_neg hname] at h
    exact h

/-- The same files and the same standard input; more may have been printed. -/
def SameSources (e e₁ : Environment) : Prop := e₁.folder = e.folder ∧ e₁.input = e.input

theorem SameSources.trans (h : e.SameSources e₁) (h₁ : e₁.SameSources e₂) : e.SameSources e₂ :=
  ⟨h₁.1.trans h.1, h₁.2.trans h.2⟩

theorem Supplies.of_sameSources (h : e.Supplies lib name bytes) (hsame : e.SameSources e₁) :
    e₁.Supplies lib name bytes := by
  unfold Supplies at *
  rwa [hsame.1, hsame.2]

theorem SameSources.afterReading (h : e.SameSources e₁) (name : String) :
    (e.afterReading name).SameSources (e₁.afterReading name) :=
  ⟨h.1, congrArg (again name) h.2⟩

end Environment

open Environment

section

variable {lib : Libraries} {e : Environment} {name : String} {bytes : List UInt8}

theorem readSource_eq (h : e.Supplies lib name bytes) :
    readSource lib name e = (.ok bytes, e.afterReading name) := by
  by_cases hname : name = "-"
  · subst hname
    obtain rfl : e.input = bytes := h
    rfl
  · rw [Supplies, if_neg hname] at h
    obtain ⟨stored, hfind, hcontents⟩ := h
    have hget : (get : Action Environment) e = (e, e) := rfl
    rw [readSource, afterReading, again, if_neg hname, if_neg hname, Action.bind hget, hfind]
    exact congrArg (·, e) hcontents

theorem loadFormula_eq {p q : Problem} (h : e.Supplies lib name bytes)
    (hread : p.readFormula bytes = (q, none)) (verbose : Bool) :
    ∃ e₁, loadFormula lib p name verbose e = (.ok q, e₁) ∧ (e.afterReading name).SameSources e₁ := by
  rw [loadFormula, Action.bind (readSource_eq h)]
  simp only [hread]
  cases verbose <;> exact ⟨_, rfl, rfl, rfl⟩

theorem loadProof_eq {p q : Problem} (h : e.Supplies lib name bytes)
    (hread : p.readProof bytes = (q, none)) : loadProof lib p name e = (.ok q, e.afterReading name) := by
  rw [loadProof, Action.bind (readSource_eq h)]
  simp only [hread]
  rfl

/-- Writing a file leaves standard input and the other files as they are. -/
theorem writeFile_eq {place : Place} (h : e.folder.placeFor name = .ok place) (text : String) :
    ∃ e₁, writeFile name text e = (.ok (), e₁) ∧ e₁.input = e.input ∧
      ∀ other node, Place.ofName other ≠ place → e.folder.find other = .ok node →
        e₁.folder.find other = .ok node := by
  have hget : (get : Action Environment) e = (e, e) := rfl
  rw [writeFile, Action.bind hget, h]
  dsimp only
  rcases Device.ofPlace? place with _ | (_ | _ | _)
  · exact ⟨_, rfl, rfl, fun other node hother hfind => Folder.find_put h hother hfind _⟩
  all_goals exact ⟨_, rfl, rfl, fun _ _ _ hfind => hfind⟩

end

section

variable {lib : Libraries} {e : Environment} {formula proof : String} {fs ps : List UInt8}
  {q : Problem} {v : Verdict}

theorem load_eq (hf : e.Supplies lib formula fs) (hp : e.Supplies lib proof ps)
    (hdash : formula ≠ "-" ∨ proof ≠ "-") (hread : Problem.ofBytes fs ps = .ok q) (verbose : Bool) :
    ∃ e₁, load lib formula proof verbose e = (.ok q, e₁) ∧
      ((e.afterReading formula).afterReading proof).SameSources e₁ := by
  obtain ⟨p, hformula, hproof⟩ := Problem.ofBytes_eq_ok.1 hread
  obtain ⟨e₁, hload, hsame⟩ := loadFormula_eq hf hformula verbose
  have hp₁ := (hp.afterReading hdash).of_sameSources hsame
  rw [load, Action.bind hload]
  dsimp only
  rw [Action.bind (loadProof_eq hp₁ hproof)]
  exact ⟨_, rfl, hsame.afterReading proof⟩

theorem readProblem_eq (hf : e.Supplies lib formula fs) (hp : e.Supplies lib proof ps)
    (hdash : formula ≠ "-" ∨ proof ≠ "-") :
    readProblem lib formula proof e =
      (Problem.ofBytes fs ps, (e.afterReading formula).afterReading proof) := by
  rw [readProblem, Action.bind (readSource_eq hf)]
  dsimp only
  rw [Action.bind (readSource_eq (hp.afterReading hdash))]
  rfl

theorem confirm_eq_true (hf : e.Supplies lib formula fs) (hp : e.Supplies lib proof ps)
    (hdash : formula ≠ "-" ∨ proof ≠ "-") (hread : Problem.ofBytes fs ps = .ok q)
    (hcheck : recheck q.formula q.proof v = .ok ()) :
    ∃ e₁, confirm lib formula proof v e = (.ok true, e₁) := by
  have hproblem := readProblem_eq hf hp hdash
  rw [hread] at hproblem
  obtain ⟨e₁, hfiles⟩ : ∃ e₁, recheckFiles lib formula proof v e = (.ok (.ok ()), e₁) := by
    rw [recheckFiles, Action.bind hproblem]
    dsimp only
    rw [hcheck]
    exact ⟨_, rfl⟩
  rw [confirm, Action.bind hfiles]
  exact ⟨_, rfl⟩

theorem confirm_eq_false (hf : e.Supplies lib formula fs) (hp : e.Supplies lib proof ps)
    (hdash : formula ≠ "-" ∨ proof ≠ "-")
    (h : ∀ q, Problem.ofBytes fs ps = .ok q →
      ∃ o, recheck q.formula q.proof v = .error (.objection o)) :
    ∃ e₁, confirm lib formula proof v e = (.ok false, e₁) := by
  have hproblem := readProblem_eq hf hp hdash
  obtain ⟨why, e₁, hfiles⟩ : ∃ why e₁, recheckFiles lib formula proof v e = (.ok (.error why), e₁) := by
    rw [recheckFiles, Action.bind hproblem]
    rcases hread : Problem.ofBytes fs ps with why | q
    · exact ⟨.source why, _, rfl⟩
    · obtain ⟨o, ho⟩ := h q hread
      dsimp only
      rw [ho]
      exact ⟨.objection o, _, rfl⟩
  rw [confirm, Action.bind hfiles]
  exact ⟨_, rfl⟩

end

end Command
end ClausalProof
