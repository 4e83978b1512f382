import ClausalProof.Proofs.Engine.History

set_option autoImplicit false

/-!
Propagation in portions. Literals are assigned one by one and propagated wherever the caller likes, in
an engine whose watches stand where earlier checks have left them; each propagation looks only at what
is new on the trail. Between two calls the trail lies between the assigned literals and their closure
under the watched clauses (`Tracks`), and a propagation without conflict makes it that closure.
-/
namespace ClausalProof.Engine

/-- A call that leaves its assignments in place. -/
inductive Call where
  | assign (l : Literal) (reason : Reason)
  | propagate
deriving DecidableEq, Repr

namespace Call

def literal? : Call → Option Literal
  | .assign l _ => some l
  | .propagate => none

def Within (n : Nat) (x : Call) : Prop := ∀ l ∈ x.literal?, l.isValid = true ∧ l.var ≤ n

instance (n : Nat) (x : Call) : Decidable (x.Within n) :=
  inferInstanceAs (Decidable (∀ l ∈ x.literal?, l.isValid = true ∧ l.var ≤ n))

end Call

def call (e : Engine) : Call → Checked (Engine × Progress)
  | .assign l reason => e.assign l reason
  | .propagate => e.propagate

/-- Make calls, up to the first that runs into a conflict. -/
def callAll (e : Engine) : List Call → Checked (Engine × Progress)
  | [] => .ok (e, .quiet)
  | x :: xs => do
    match ← e.call x with
    | (e, .conflict) => return (e, .conflict)
    | (e, .quiet) => e.callAll xs

def assigned (xs : List Call) : List Literal := xs.filterMap Call.literal?

theorem assigned_cons (x : Call) (xs : List Call) :
    assigned (x :: xs) = x.literal?.toList ++ assigned xs := by
  cases x <;> rfl

/-- The trail lies between the literals of `A` and their closure, and propagation can go on. -/
structure Tracks (e : Engine) (A : List Literal) : Prop extends e.Steady where
  given : ∀ l ∈ A, l ∈ e.trail.literals
  forced : ∀ l ∈ e.trail.literals, Forced (e.watched.map Prod.snd) A l

theorem Idle.tracks {e : Engine} (h : e.Idle) : e.Tracks [] := by
  have hnil : e.trail.literals = [] := by rw [h.trail]; rfl
  refine ⟨h.running.steady h.processed, by simp, ?_⟩
  simp [hnil]

theorem eq_of_assign {e f : Engine} {l : Literal} {reason : Reason} {p : Progress}
    (h : e.assign l reason = .ok (f, p)) : ∃ t, f = { e with trail := t } := by
  simp only [Engine.assign, Checked.bind_eq_ok] at h
  obtain ⟨isFalse, _, h⟩ := h
  split at h
  · cases h
    exact ⟨e.trail, rfl⟩
  · obtain ⟨isTrue, _, h⟩ := Checked.bind_eq_ok.1 h
    split at h
    · cases h
      exact ⟨e.trail, rfl⟩
    · obtain ⟨t, _, h⟩ := Checked.bind_eq_ok.1 h
      cases h
      exact ⟨t, rfl⟩

/-- An assignment draws no consequences, so what is settled stays settled. -/
theorem Steady.assign {e f : Engine} {l : Literal} {reason : Reason} {p : Progress} (h : e.Steady)
    (hf : f.Running) (hon : Onward e f) (hassign : e.assign l reason = .ok (f, p)) : f.Steady := by
  obtain ⟨t, rfl⟩ := eq_of_assign hassign
  refine ⟨hf, fun id a b hp hd => ?_⟩
  rw [hon.drawn rfl h.processed_le] at hd
  exact hon.mem (h.settled id a b hp hd)

section

variable {e : Engine} {A : List Literal}

theorem Tracks.assign {l : Literal} (h : e.Tracks A) (reason : Reason) (hv : l.isValid = true)
    (hl : l.var ≤ e.maxVar) :
    ∃ f p, e.assign l reason = .ok (f, p) ∧ Onward e f ∧ (p = .quiet → f.Tracks (A ++ [l])) := by
  let Q : Trail → Prop := fun t => ∀ k ∈ t.literals, Forced (e.watched.map Prod.snd) (A ++ [l]) k
  have hQ : Q e.trail := fun k hk =>
    (h.forced k hk).mono (fun _ hc => hc) fun m hm => List.mem_append_left _ hm
  have hpush : ∀ u, e.trail.push l reason = .ok u → Q e.trail → Q u := by
    intro u hu _ k hk
    rw [Trail.literals_push hu] at hk
    rcases List.mem_append.1 hk with hk | hk
    · exact hQ k hk
    · exact .given (List.mem_append_right _ hk)
  rcases h.toRunning.assign reason hv hl hpush hQ with
    ⟨hassign, _⟩ | ⟨f, hassign, hon, _, hf, hQf, hmem⟩
  · exact ⟨e, .conflict, hassign, .refl e, by simp⟩
  · refine ⟨f, .quiet, hassign, hon, fun _ => ⟨h.toSteady.assign hf hon hassign, ?_, ?_⟩⟩
    · intro k hk
      rcases List.mem_append.1 hk with hk | hk
      · exact hon.mem (h.given k hk)
      · exact List.mem_singleton.1 hk ▸ hmem
    · rw [hon.watched]
      exact hQf

theorem Tracks.propagate (h : e.Tracks A) :
    ∃ f p, e.propagate = .ok (f, p) ∧ Onward e f ∧
      (∀ l ∈ f.trail.literals, Forced (e.watched.map Prod.snd) A l) ∧
      (p = .quiet → f.Tracks A ∧ f.processed = f.trail.size) ∧ (p = .conflict → f.Falsified) := by
  obtain ⟨f, p, hf, hon, hforced, hsound, hend⟩ :=
    h.toSteady.propagate (keptByForcing_forced e.watched A) h.forced
  refine ⟨f, p, hf, hon, hforced, ?_, ?_⟩
  · rintro rfl
    refine ⟨⟨hsound, fun l hl => hon.mem (h.given l hl), ?_⟩, hend rfl⟩
    rw [hon.watched]
    exact hforced
  · rintro rfl
    exact hsound.2

theorem Tracks.call {x : Call} (h : e.Tracks A) (hx : x.Within e.maxVar) :
    ∃ f p, e.call x = .ok (f, p) ∧ Onward e f ∧ (p = .quiet → f.Tracks (A ++ x.literal?.toList)) := by
  cases x with
  | assign l reason =>
    obtain ⟨hv, hl⟩ := hx l rfl
    exact h.assign reason hv hl
  | propagate =>
    obtain ⟨f, p, hf, hon, _, hquiet, _⟩ := h.propagate
    refine ⟨f, p, hf, hon, fun hp => ?_⟩
    simpa [Call.literal?] using (hquiet hp).1

theorem Tracks.callAll {xs : List Call} (h : e.Tracks A) (hxs : ∀ x ∈ xs, x.Within e.maxVar) :
    ∃ f p, e.callAll xs = .ok (f, p) ∧ Onward e f ∧ (p = .quiet → f.Tracks (A ++ assigned xs)) := by
  induction xs generalizing e A with
  | nil => exact ⟨e, .quiet, rfl, .refl e, fun _ => by simpa [assigned] using h⟩
  | cons x xs ih =>
    obtain ⟨f, p, hf, hon, hquiet⟩ := h.call (hxs x List.mem_cons_self)
    rw [Engine.callAll, hf]
    cases p with
    | conflict => exact ⟨f, .conflict, rfl, hon, by simp⟩
    | quiet =>
      obtain ⟨g, q, hg, hog, htracks⟩ := ih (hquiet rfl) fun y hy =>
        hon.maxVar.symm ▸ hxs y (List.mem_cons_of_mem _ hy)
      refine ⟨g, q, hg, hon.trans hog, fun hq => ?_⟩
      rw [assigned_cons, ← List.append_assoc]
      exact htracks hq

/-- When all of the trail is drawn, it is at rest. -/
theorem Tracks.rests (h : e.Tracks A) (hend : e.processed = e.trail.size) :
    Rests (e.watched.map Prod.snd) A e.trail.literals := by
  refine ⟨h.given, h.faithful.consistent, fun c hc => ?_⟩
  obtain ⟨⟨id, d⟩, hd, rfl⟩ := List.mem_map.1 hc
  obtain ⟨hlive, hlen⟩ := List.mem_filter.1 hd
  exact h.stable hend hlive (by simpa using hlen)

end

/-- From any engine that has been used before, and after any calls that ran into no conflict,
    propagation ends. Without a conflict the trail is the closure of the assigned literals under the
    live clauses of two or more literals, all of which are stable; with a conflict some live clause is
    falsified by literals of that closure. -/
theorem propagate_closure (n : Nat) (ops : List Operation) (hops : ∀ op ∈ ops, op.Within n)
    (e : Engine) (replies : List Reply) (he : (empty n).performAll ops = .ok (e, replies))
    (xs : List Call) (hxs : ∀ x ∈ xs, x.Within n) :
    ∃ f p, e.callAll xs = .ok (f, p) ∧ (p = .quiet → ∃ g q, f.propagate = .ok (g, q) ∧
      g.store = e.store ∧
      (q = .quiet → Consistent g.trail.literals ∧
        (∀ l, l ∈ g.trail.literals ↔ Forced (e.watched.map Prod.snd) (assigned xs) l) ∧
        ∀ c ∈ e.watched.map Prod.snd, Stable g.trail.literals c) ∧
      (q = .conflict → g.Falsified ∧
        ∀ l ∈ g.trail.literals, Forced (e.watched.map Prod.snd) (assigned xs) l)) := by
  obtain ⟨hidle, hmax⟩ : e.Idle ∧ e.maxVar = n := by
    rcases (idle_empty n).performAll hops with ⟨d, _, hd, hidle, hmax, _⟩ | ⟨herror, _⟩
    · cases hd.symm.trans he
      exact ⟨hidle, hmax⟩
    · cases herror.symm.trans he
  obtain ⟨f, p, hf, hef, htracks⟩ := hidle.tracks.callAll (hmax.symm ▸ hxs)
  refine ⟨f, p, hf, fun hp => ?_⟩
  rw [List.nil_append] at htracks
  obtain ⟨g, q, hg, hfg, hforced, hquiet, hconflict⟩ := (htracks hp).propagate
  have heg := hef.trans hfg
  rw [hef.watched] at hforced
  refine ⟨g, q, hg, heg.store, fun hq => ?_, fun hq => ⟨hconflict hq, hforced⟩⟩
  obtain ⟨hg, hend⟩ := hquiet hq
  have hrests := hg.rests hend
  rw [heg.watched] at hrests
  exact ⟨hrests.consistent, fun l => ⟨hforced l, hrests.mem_of_forced⟩, hrests.stable⟩

/-- The refutation runs into the unit clause and leaves the watches where it stopped. -/
def stoppedHistory : List Operation :=
  [.add [⟨1, false⟩, ⟨2, false⟩, ⟨3, false⟩] false, .add [⟨3, true⟩, ⟨4, false⟩] true,
    .add [⟨4, true⟩] true, .refute [⟨1, false⟩, ⟨2, false⟩]]

def twoPortions : List Call :=
  [.assign ⟨1, true⟩ .assumed, .propagate, .assign ⟨2, true⟩ .assumed]

/-- Nothing follows from the first literal alone. The unit clause is not watched, so propagation goes
    past its negation. -/
theorem propagate_closure_two_portions :
    ∃ e f g, (empty 4).performAll stoppedHistory =
        .ok (e, [.added 0, .added 1, .added 2, .refuted .conflict]) ∧
      e.callAll twoPortions = .ok (f, .quiet) ∧ f.trail.literals = [⟨1, true⟩, ⟨2, true⟩] ∧
      f.propagate = .ok (g, .quiet) ∧ g.store = e.store ∧
      ∀ l, Forced (e.watched.map Prod.snd) [⟨1, true⟩, ⟨2, true⟩] l ↔
        l ∈ [⟨1, true⟩, ⟨2, true⟩, ⟨3, false⟩, ⟨4, false⟩] := by
  have hrun : (do
      let x ← (empty 4).performAll stoppedHistory
      let y ← x.1.callAll twoPortions
      let z ← y.1.propagate
      return (x.2, y.2, y.1.trail.literals, z.2, z.1.trail.literals)) =
      .ok ([.added 0, .added 1, .added 2, .refuted .conflict], .quiet, [⟨1, true⟩, ⟨2, true⟩], .quiet,
        [⟨1, true⟩, ⟨2, true⟩, ⟨3, false⟩, ⟨4, false⟩]) := by decide +kernel
  obtain ⟨⟨e, replies⟩, he, hrun⟩ := Checked.bind_eq_ok.1 hrun
  obtain ⟨⟨f, p⟩, hf, hrun⟩ := Checked.bind_eq_ok.1 hrun
  obtain ⟨⟨g, q⟩, hg, hrun⟩ := Checked.bind_eq_ok.1 hrun
  obtain ⟨rfl, rfl, htrail, rfl, hclosure⟩ : replies = _ ∧ p = _ ∧ f.trail.literals = _ ∧ q = _ ∧
      g.trail.literals = _ := by simpa using Checked.pure_eq_ok.1 hrun
  obtain ⟨f', p', hf', hquiet⟩ := propagate_closure 4 stoppedHistory (by decide) e _ he twoPortions
    (by decide)
  cases hf.symm.trans hf'
  obtain ⟨g', q', hg', hstore, hnone, _⟩ := hquiet rfl
  cases hg.symm.trans hg'
  refine ⟨e, f, g, he, hf, htrail, hg, hstore, fun l => ?_⟩
  rw [← hclosure]
  exact ((hnone rfl).2.1 l).symm

end ClausalProof.Engine
