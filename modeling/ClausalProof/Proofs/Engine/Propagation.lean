import ClausalProof.Proofs.Engine.Visit

set_option autoImplicit false

/-!
Propagation with watched literals. While trail entries are processed, a clause one of whose watched
literals is false and processed has its other watched literal true, apart from the clauses of the
list that is being visited. Once all entries are processed every clause is therefore stable. Nothing
on the way can fault, and a conflict comes with a falsified live clause.
-/
namespace ClausalProof.Engine

/-- The trail literals whose consequences have been drawn. -/
def drawn (e : Engine) : List Literal := e.trail.literals.take e.processed

theorem mem_of_drawn {e : Engine} {l : Literal} (h : l ∈ e.drawn) : l ∈ e.trail.literals :=
  List.mem_of_mem_take h

/-- What propagation leaves alone: the clauses, and the trail up to where it was. -/
structure Onward (e f : Engine) : Prop where
  store : f.store = e.store
  maxVar : f.maxVar = e.maxVar
  units : f.units = e.units
  emptyCount : f.emptyCount = e.emptyCount
  trail : e.trail.literals <+: f.trail.literals

theorem Onward.refl (e : Engine) : Onward e e := ⟨rfl, rfl, rfl, rfl, List.prefix_refl _⟩

theorem Onward.trans {e f g : Engine} (h : Onward e f) (k : Onward f g) : Onward e g :=
  ⟨k.store.trans h.store, k.maxVar.trans h.maxVar, k.units.trans h.units,
    k.emptyCount.trans h.emptyCount, h.trail.trans k.trail⟩

theorem Onward.mem {e f : Engine} {l : Literal} (h : Onward e f) (hl : l ∈ e.trail.literals) :
    l ∈ f.trail.literals := h.trail.subset hl

theorem Onward.drawn {e f : Engine} (h : Onward e f) (hp : f.processed = e.processed)
    (hle : e.processed ≤ e.trail.size) : f.drawn = e.drawn := by
  obtain ⟨newer, hnewer⟩ := h.trail
  rw [← Trail.literals_length] at hle
  rw [Engine.drawn, Engine.drawn, hp, ← hnewer, List.take_append_of_le_length hle]

/-- In the list `A ++ B` of the false literal `l`, the clauses of `A` have been visited. A clause
    elsewhere whose watched literal is false and drawn has its other watched literal true. -/
structure Visiting (e : Engine) (l : Literal) (A B : List Nat) : Prop extends e.Running where
  refuted : -l ∈ e.drawn
  row : (rowOf e.watchers l).toList = A ++ B
  settled : ∀ id a b, e.Pairs id a b → -a ∈ e.drawn → b ∈ e.trail.literals ∨ (a = l ∧ id ∈ B)

/-- A property of trails that holds on when a clause of `xs` forces its last literal. -/
def KeptByForcing (xs : List (Nat × Clause)) (Q : Trail → Prop) : Prop :=
  ∀ t u id c l, (id, c) ∈ xs → l ∈ c → (∀ k ∈ c, k ≠ l → -k ∈ t.literals) →
    t.push l (.forced id) = .ok u → Q t → Q u

/-- Forced literals stay within the closure of the literals they were forced from. -/
theorem keptByForcing_forced (xs : List (Nat × Clause)) (A : List Literal) :
    KeptByForcing xs (fun t => ∀ k ∈ t.literals, Forced (xs.map Prod.snd) A k) := by
  intro t u id c l hc hl hfalse hpush ht k hk
  rw [Trail.literals_push hpush, List.mem_append, List.mem_singleton] at hk
  rcases hk with hk | rfl
  · exact ht k hk
  · exact .unit (List.mem_map_of_mem (f := Prod.snd) hc) hl fun m hm hne => ht _ (hfalse m hm hne)

/-- The clauses that are watched. -/
def watched (e : Engine) : List (Nat × Clause) := e.store.liveClauses.filter (2 ≤ ·.2.length)

theorem Onward.watched {e f : Engine} (h : Onward e f) : f.watched = e.watched := by
  rw [Engine.watched, Engine.watched, h.store]

theorem Visited.onward {e f : Engine} {l : Literal} {A B : List Nat} {id : Nat} {v : Visit}
    (h : Visited e l A id B f v) : Onward e f ∧ f.processed = e.processed := by
  cases h with
  | satisfied _ _ => exact ⟨.refl e, rfl⟩
  | moved _ _ => exact ⟨⟨rfl, rfl, rfl, rfl, List.prefix_refl _⟩, rfl⟩
  | forced _ _ _ _ _ _ _ hlits => exact ⟨⟨rfl, rfl, rfl, rfl, by rw [hlits]; simp⟩, rfl⟩
  | falsified _ _ => exact ⟨.refl e, rfl⟩

theorem Visited.kept {e f : Engine} {l : Literal} {A B : List Nat} {id : Nat} {v : Visit}
    {Q : Trail → Prop} (h : Visited e l A id B f v) (hQ : KeptByForcing e.watched Q)
    (he : Q e.trail) : Q f.trail := by
  cases h with
  | satisfied _ _ => exact he
  | moved _ _ => exact he
  | forced hc hlen _ hother hfalse hpush _ _ =>
    exact hQ _ _ _ _ _ (List.mem_filter.2 ⟨hc, by simpa using hlen⟩) hother hfalse hpush he
  | falsified _ _ => exact he

theorem Visiting.stays {e f : Engine} {l : Literal} {A B : List Nat} {id : Nat}
    (h : Visiting e l A (id :: B)) (hv : Visited e l A id B f .stays) :
    Visiting f l (A ++ [id]) B := by
  -- the visited clause has its other watched literal true now
  have hsettle : ∀ g : Engine, g.Pairs = e.Pairs → (∀ k ∈ e.trail.literals, k ∈ g.trail.literals) →
      (∃ other, e.Pairs id l other ∧ other ∈ g.trail.literals) → ∀ i a b, g.Pairs i a b →
      -a ∈ e.drawn → b ∈ g.trail.literals ∨ (a = l ∧ i ∈ B) := by
    rintro g hg hsub ⟨other, hp, htrue⟩ i a b hab hd
    rw [hg] at hab
    rcases h.settled i a b hab hd with hb | ⟨rfl, hi⟩
    · exact .inl (hsub b hb)
    · rcases List.mem_cons.1 hi with rfl | hi
      · exact .inl (h.pairs_unique hp hab ▸ htrue)
      · exact .inr ⟨rfl, hi⟩
  cases hv with
  | satisfied hp htrue =>
    refine ⟨h.toRunning, h.refuted, by rw [h.row]; simp, ?_⟩
    exact hsettle e rfl (fun _ hk => hk) ⟨_, hp, htrue⟩
  | @forced c other t hc hlen hp hother hfalse hpush hft hlits =>
    have hsize : e.processed ≤ t.size := by
      rw [← Trail.literals_length, hlits, List.length_append, Trail.literals_length]
      exact Nat.le_add_right_of_le h.processed_le
    have hon : Onward e { e with trail := t } := ⟨rfl, rfl, rfl, rfl, by rw [hlits]; simp⟩
    have hdrawn := hon.drawn rfl h.processed_le
    refine ⟨⟨?_, hft, hsize⟩, hdrawn ▸ h.refuted, by rw [h.row]; simp, ?_⟩
    · exact { h.toArranged with }
    · rw [hdrawn]
      refine hsettle { e with trail := t } rfl ?_ ⟨other, hp, ?_⟩
      · intro k hk
        rw [hlits]
        exact List.mem_append_left _ hk
      · rw [hlits]
        simp

theorem Visiting.leaves {e f : Engine} {l : Literal} {A B : List Nat} {id : Nat}
    (h : Visiting e l A (id :: B)) (hv : Visited e l A id B f .leaves) :
    ∃ C, C.length = B.length ∧ Visiting f l A C := by
  cases hv with
  | @moved c v other m row C hm hmove =>
    have hrow : (rowOf (e.relocated id v l m row).watchers l).toList = A ++ C := by
      rw [hmove.rowOf_relocated h.toArranged, if_neg (Ne.symm hmove.ne), if_pos rfl, hmove.after]
    refine ⟨C, hmove.perm.length_eq, ⟨hmove.arranged h.toArranged, h.faithful, h.processed_le⟩,
      h.refuted, hrow, ?_⟩
    intro i a b hab hd
    change -a ∈ e.drawn at hd
    rcases (hmove.pairs_relocated i a b).1 hab with ⟨hi, hab⟩ | ⟨rfl, ⟨rfl, rfl⟩ | ⟨rfl, rfl⟩⟩
    · rcases h.settled i a b hab hd with hb | ⟨ha, hi'⟩
      · exact .inl hb
      · exact .inr ⟨ha, hmove.perm.mem_iff.2 ((List.mem_cons.1 hi').resolve_left hi)⟩
    · exact absurd (mem_of_drawn hd) hm
    · -- a drawn negation of the other literal would have made `l` true
      rcases h.settled _ _ _ hmove.pairs.symm hd with hlT | ⟨he, _⟩
      · exact absurd (mem_of_drawn h.refuted) (h.faithful.consistent l hlT)
      · exact absurd he.symm (h.pairs_ne hmove.pairs)

/-- Between two lists: a clause whose watched literal is false and drawn has the other one true. -/
structure Steady (e : Engine) : Prop extends e.Running where
  settled : ∀ id a b, e.Pairs id a b → -a ∈ e.drawn → b ∈ e.trail.literals

/-- Some live clause has no literal that is not false. -/
def Falsified (e : Engine) : Prop :=
  ∃ id c, (id, c) ∈ e.store.liveClauses ∧ ∀ k ∈ c, -k ∈ e.trail.literals

/-- What holds after a part of propagation that ended in `p`. -/
def Sound (e : Engine) : Progress → Prop
  | .quiet => e.Steady
  | .conflict => e.Running ∧ e.Falsified

theorem Visiting.visitAll {e : Engine} {l : Literal} {A B : List Nat} {Q : Trail → Prop}
    (h : Visiting e l A B) (hQ : KeptByForcing e.watched Q) (he : Q e.trail) :
    ∃ f p, e.visitAll l A.length B.length = .ok (f, p) ∧ Onward e f ∧ f.processed = e.processed ∧
      Q f.trail ∧ f.Sound p := by
  -- a clause that leaves is replaced from behind, so the induction is on the number of clauses left
  induction hn : B.length generalizing e A B with
  | zero =>
    obtain rfl := List.eq_nil_of_length_eq_zero hn
    have hvar : l.var ≤ e.maxVar := h.faithful.bounded (-l) (mem_of_drawn h.refuted)
    have hsize : (rowOf e.watchers l).size = A.length := by
      rw [← Array.length_toList, h.row, List.append_nil]
    refine ⟨e, .quiet, ?_, .refl e, rfl, he, h.toRunning, ?_⟩
    · simp [Engine.visitAll, h.watchersOf hvar, hsize, require, bind, Except.bind, pure, Except.pure]
    · intro id a b hp hd
      exact (h.settled id a b hp hd).resolve_right (by simp)
  | succ n ih =>
    obtain ⟨id, B, rfl⟩ := List.exists_cons_of_length_eq_add_one hn
    obtain ⟨f, v, hvisit, hv⟩ := h.toRunning.visit (mem_of_drawn h.refuted) h.row
    obtain ⟨hon, hprocessed⟩ := hv.onward
    have hQf := hv.kept hQ he
    have hwatched := hon.watched
    have hlen : B.length = n := by simpa using hn
    rw [Engine.visitAll, hvisit]
    cases v with
    | stays =>
      obtain ⟨g, p, hg, hog, hpg, hQg, hsg⟩ := ih (h.stays hv) (hwatched ▸ hQ) hQf hlen
      rw [List.length_append, List.length_singleton] at hg
      exact ⟨g, p, hg, hon.trans hog, hpg.trans hprocessed, hQg, hsg⟩
    | leaves =>
      obtain ⟨C, hC, hf⟩ := h.leaves hv
      obtain ⟨g, p, hg, hog, hpg, hQg, hsg⟩ := ih hf (hwatched ▸ hQ) hQf (hC.trans hlen)
      exact ⟨g, p, hg, hon.trans hog, hpg.trans hprocessed, hQg, hsg⟩
    | conflict =>
      refine ⟨f, .conflict, rfl, hon, hprocessed, hQf, ?_⟩
      cases hv with
      | falsified hc hfalse => exact ⟨h.toRunning, _, _, hc, hfalse⟩

theorem Steady.processNext {e : Engine} {Q : Trail → Prop} (h : e.Steady)
    (hlt : e.processed < e.trail.size) (hQ : KeptByForcing e.watched Q) (he : Q e.trail) :
    ∃ f p, e.processNext = .ok (f, p) ∧ Onward e f ∧ Q f.trail ∧ f.Sound p := by
  have hlen : e.processed < e.trail.literals.length := by rwa [Trail.literals_length]
  obtain ⟨k, hk⟩ : ∃ k, e.trail.literals[e.processed]? = some k :=
    ⟨_, List.getElem?_eq_getElem hlen⟩
  obtain ⟨entry, hentry, rfl⟩ : ∃ entry, e.trail.entry e.processed = .ok entry ∧ entry.literal = k := by
    simp only [Trail.literals, List.getElem?_map, Array.getElem?_toList, Option.map_eq_some_iff] at hk
    obtain ⟨entry, hentry, rfl⟩ := hk
    exact ⟨entry, Bounded.get_eq_ok.2 hentry, rfl⟩
  have hmem := List.mem_of_getElem? hk
  have hvar : (-entry.literal).var ≤ e.maxVar := h.faithful.bounded entry.literal hmem
  have hrow := h.watchersOf hvar
  let d : Engine := { e with processed := e.processed + 1 }
  have hdrawn : d.drawn = e.drawn ++ [entry.literal] := by
    rw [drawn, drawn, List.take_add_one, hk]
    rfl
  have hd : Visiting d (-entry.literal) [] (rowOf e.watchers (-entry.literal)).toList := by
    refine ⟨⟨{ h.toArranged with }, h.faithful, hlt⟩, ?_, rfl, ?_⟩
    · rw [hdrawn]
      simp
    · intro id a b hp ha
      rw [hdrawn] at ha
      rcases List.mem_append.1 ha with ha | ha
      · exact .inl (h.settled id a b hp ha)
      · have hae : a = -entry.literal := Literal.neg_eq_iff.1 (List.mem_singleton.1 ha)
        refine .inr ⟨hae, ?_⟩
        rw [Array.mem_toList_iff, h.mem_row]
        exact ⟨b, hae ▸ hp⟩
  obtain ⟨f, p, hf, hon, _, hQf, hs⟩ := hd.visitAll hQ he
  refine ⟨f, p, ?_, ⟨hon.store, hon.maxVar, hon.units, hon.emptyCount, hon.trail⟩, hQf, hs⟩
  rw [Engine.processNext, hentry]
  simp only [bind, Except.bind, hrow]
  rw [← Array.length_toList]
  exact hf

/-- Propagation comes to an end: without a conflict all of the trail is drawn. -/
theorem Steady.propagate {e : Engine} {Q : Trail → Prop} (h : e.Steady)
    (hQ : KeptByForcing e.watched Q) (he : Q e.trail) :
    ∃ f p, e.propagate = .ok (f, p) ∧ Onward e f ∧ Q f.trail ∧ f.Sound p ∧
      (p = .quiet → f.processed = f.trail.size) := by
  induction hn : e.pending using Nat.strongRecOn generalizing e with
  | ind n ih =>
    subst hn
    by_cases hlt : e.processed < e.trail.size
    · obtain ⟨f, p, hf, hon, hQf, hs⟩ := h.processNext hlt hQ he
      have hwatched := hon.watched
      cases p with
      | conflict =>
        refine ⟨f, .conflict, ?_, hon, hQf, hs, by simp⟩
        rw [Engine.propagate, if_pos hlt]
        split <;> simp_all
      | quiet =>
        have hless : f.pending < e.pending := by
          have := processNext_ahead hf
          unfold pending
          omega
        obtain ⟨g, p, hg, hog, hQg, hsg, hend⟩ := ih _ hless hs (hwatched ▸ hQ) hQf rfl
        refine ⟨g, p, ?_, hon.trans hog, hQg, hsg, hend⟩
        rw [Engine.propagate, if_pos hlt]
        split <;> simp_all
    · refine ⟨e, .quiet, ?_, .refl e, he, h, fun _ => ?_⟩
      · rw [Engine.propagate, if_neg hlt]
      · have := h.processed_le
        omega

/-- When all of the trail is drawn, every watched clause is stable. -/
theorem Steady.stable {e : Engine} (h : e.Steady) (hend : e.processed = e.trail.size) {id : Nat}
    {c : Clause} (hc : (id, c) ∈ e.store.liveClauses) (hlen : 2 ≤ c.length) :
    Stable e.trail.literals c := by
  have hdrawn : e.drawn = e.trail.literals := by
    rw [drawn, hend, ← Trail.literals_length, List.take_length]
  obtain ⟨w, hw⟩ := h.exists_watch hc
  obtain ⟨a, b, hab⟩ := (h.within id c w hc hlen hw).exists_pairs
  have hp : e.Pairs id a b := ⟨c, w, hc, hlen, hw, hab⟩
  by_cases ha : a ∈ e.trail.literals
  · exact .inl ⟨a, hab.mem, ha⟩
  by_cases hb : b ∈ e.trail.literals
  · exact .inl ⟨b, hab.symm.mem, hb⟩
  refine .inr ⟨a, hab.mem, b, hab.symm.mem, h.pairs_ne hp, ⟨ha, ?_⟩, ⟨hb, ?_⟩⟩
  · exact fun hn => hb (h.settled id a b hp (hdrawn ▸ hn))
  · exact fun hn => ha (h.settled id b a hp.symm (hdrawn ▸ hn))

end ClausalProof.Engine
