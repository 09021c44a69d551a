/-
WorkspaceAudit/Proofs/Tree/Landing.lean

Where the walk of a path ends.

A trail is `Sound` if each of its directories stands under its name in the
one before.  The walk of a path keeps its trail sound, through steps up and
through links, so whatever a path is found to lead to is there
(`at?_of_resolve`), and a path whose last step goes down to no name leads to a
directory; one that ends in a slash never leads to a link
(`isLink_of_endsInSlash`).
-/
import WorkspaceAudit.Proofs.Tree.Shape

namespace WorkspaceAudit

namespace Entries

theorem at?_append {es sub : Entries} {loc : Location} (h : es.at? loc = some (.dir sub))
    (loc' : Location) : es.at? (loc ++ loc') = sub.at? loc' := by
  induction loc generalizing es with
  | nil =>
    cases h
    rfl
  | cons n loc ih =>
    rcases e : es.lookup n with - | x
    · rw [at?, e] at h
      cases h
    · cases x with
      | dir below =>
        rw [at?_cons_dir e] at h
        rw [List.cons_append, at?_cons_dir e, ih h]
      | _ =>
        -- nothing is below what is no directory
        rw [at?, e] at h
        dsimp only at h
        split at h <;> cases h

end Entries

namespace FileTree

/-- Each directory of the trail stands under its name in the one before. -/
inductive Trail.Sound (t : FileTree) : Trail → Prop
  | nil : Trail.Sound t []
  | cons {n : Name} {es : Entries} {here : Trail} : Trail.Sound t here →
      (here.entries t).lookup n = some (.dir es) → Trail.Sound t ((n, es) :: here)

variable {t : FileTree}

theorem Trail.location_cons (n : Name) (es : Entries) (here : Trail) :
    Trail.location ((n, es) :: here) = here.location ++ [n] := by
  rw [Trail.location, Trail.location, List.map_cons, List.reverse_cons]

/-- The directory that a sound trail starts from is at its location. -/
theorem Trail.Sound.at? {here : Trail} (h : here.Sound t) :
    t.at? here.location = some (.dir (here.entries t)) := by
  induction h with
  | nil => rfl
  | cons _ hn ih =>
    rw [Trail.location_cons, FileTree.at?, Entries.at?_append ih, Entries.at?_singleton, hn]
    rfl

theorem Trail.Sound.tail {here : Trail} (h : here.Sound t) : Trail.Sound t here.tail := by
  cases h with
  | nil => exact .nil
  | cons h _ => exact h

theorem trail_sound (t : FileTree) (loc : Location) : (t.trail loc).Sound t := by
  rw [trail]
  refine List.foldlRecOn loc _ .nil fun here h n _ => ?_
  split
  · next es hes => exact .cons h hes
  · exact h

theorem start_sound (t : FileTree) (p : Path) : (t.start p).Sound t := by
  rw [start]
  split
  · exact .nil
  · exact trail_sound t _

/-! ### Landing -/

/-- Where the walk of these steps ends, if it ends at a location, there is
something, and after any step but one down to a name it is a directory. -/
def Lands (t : FileTree) (steps : List Step) (r : Except FileError Target) : Prop :=
  ∀ loc, r = .ok (.found loc) →
    ∃ x, t.at? loc = some x ∧
      ∀ step, steps.getLast? = some step → (∀ n, step ≠ .down n) → x.shape = .dir

theorem lands_error (steps : List Step) (e : FileError) : t.Lands steps (.error e) := by
  intro loc h
  cases h

theorem lands_vacant (steps : List Step) (dir : Location) (n : Name) :
    t.Lands steps (.ok (.vacant dir n)) := by
  intro loc h
  cases h

theorem Trail.Sound.lands {here : Trail} (h : here.Sound t) (steps : List Step) :
    t.Lands steps (.ok (.found here.location)) := by
  intro loc hloc
  cases hloc
  exact ⟨_, h.at?, fun _ _ _ => rfl⟩

theorem Lands.of_append {before steps : List Step} {r : Except FileError Target}
    (h : t.Lands (before ++ steps) r) : t.Lands steps r := by
  intro loc hloc
  obtain ⟨x, hx, hdir⟩ := h loc hloc
  refine ⟨x, hx, fun step hlast => hdir step ?_⟩
  rw [List.getLast?_append, hlast]
  rfl

theorem lands_cons_cons {step step' : Step} {steps : List Step}
    {r : Except FileError Target} (h : t.Lands (step' :: steps) r) :
    t.Lands (step :: step' :: steps) r := by
  intro loc hloc
  rw [List.getLast?_cons_cons]
  exact h loc hloc

section Walk

variable {aim : Aim} {onLink : Trail → Path → List Step → Except FileError Target}

/-- A step that leads to a sound trail lands as the steps after it do. -/
theorem Lands.step {here : Trail} (h : here.Sound t) {steps : List Step}
    (hl : t.Lands steps (walkFrom t aim onLink here steps)) (step : Step) :
    t.Lands (step :: steps) (walkFrom t aim onLink here steps) := by
  cases steps with
  | nil =>
    rw [walkFrom]
    exact h.lands [step]
  | cons step' steps => exact lands_cons_cons hl

/-- A step to a node that is no directory lands there, if it is the last. -/
theorem lands_last {here : Trail} (h : here.Sound t) {n : Name} {x : Node}
    (hx : (here.entries t).lookup n = some x) :
    t.Lands [.down n] (.ok (.found (here.location ++ [n]))) := by
  intro loc hloc
  cases hloc
  refine ⟨x, ?_, fun step hlast hstep => ?_⟩
  · rw [FileTree.at?, Entries.at?_append h.at?, Entries.at?_singleton, hx]
  · cases hlast
    exact absurd rfl (hstep n)

theorem walkFrom_lands
    (hlink : ∀ {here : Trail}, here.Sound t → ∀ target steps,
      t.Lands steps (onLink here target steps))
    (steps : List Step) {here : Trail} (h : here.Sound t) :
    t.Lands steps (walkFrom t aim onLink here steps) := by
  induction steps generalizing here with
  | nil =>
    rw [walkFrom]
    exact h.lands []
  | cons step steps ih =>
    cases step with
    | stay =>
      rw [walkFrom]
      exact (ih h).step h _
    | slash =>
      rw [walkFrom]
      exact (ih h).step h _
    | up =>
      rw [walkFrom]
      exact (ih h.tail).step h.tail _
    | tooLong =>
      rw [walkFrom]
      exact lands_error _ _
    | down n =>
      rw [walkFrom]
      split
      · exact lands_error _ _
      split
      · -- nothing is under the name
        split
        · exact lands_vacant _ _ _
        · exact lands_error _ _
      · next target hn =>
        -- a link, which is where the walk ends or goes on elsewhere
        cases steps with
        | nil =>
          split
          · exact lands_last h hn
          · intro loc hloc
            obtain ⟨x, hx, -⟩ := hlink h target [] loc hloc
            refine ⟨x, hx, fun step hlast hstep => ?_⟩
            cases hlast
            exact absurd rfl (hstep n)
        | cons step' steps => exact lands_cons_cons (hlink h target _)
      · next es hn => exact (ih (.cons h hn)).step (.cons h hn) _
      · next x hn =>
        -- a file or a device, which only the last step may lead to
        cases steps with
        | nil => exact lands_last h hn
        | cons step' steps => exact lands_error _ _

theorem walkLinks_lands (links : Nat) (steps : List Step) {here : Trail}
    (h : here.Sound t) : t.Lands steps (walkLinks t aim links here steps) := by
  -- what is left of the path stands behind the target of a link
  induction links generalizing here steps with
  | zero => exact walkFrom_lands (fun _ _ _ => lands_error _ _) steps h
  | succ links ih =>
    refine walkFrom_lands ?_ steps h
    intro here h target steps
    split
    · exact lands_error _ _
    · split
      · exact (ih _ .nil).of_append
      · exact (ih _ h).of_append

end Walk

theorem resolve_lands (t : FileTree) (aim : Aim) (p : Path) :
    t.Lands p.walk (t.resolve aim p) := by
  rw [resolve]
  split
  · exact lands_error _ _
  split
  · exact lands_error _ _
  split
  · exact lands_error _ _
  · exact walkLinks_lands linkLimit p.walk (start_sound t p)

/-- **What a path leads to is there.** -/
theorem at?_of_resolve {aim : Aim} {p : Path} {loc : Location}
    (h : t.resolve aim p = .ok (.found loc)) : ∃ x, t.at? loc = some x := by
  obtain ⟨x, hx, -⟩ := t.resolve_lands aim p loc h
  exact ⟨x, hx⟩

/-- A look at a path finds what is where the path leads. -/
theorem node?_eq_ok_iff {aim : Aim} {p : Path} {x : Node} :
    t.node? aim p = .ok x ↔
      ∃ loc, t.resolve aim p = .ok (.found loc) ∧ t.at? loc = some x := by
  rw [node?]
  rcases t.resolve aim p with e | ⟨loc⟩ | ⟨dir, n⟩
  · constructor
    · intro h
      cases h
    · rintro ⟨_, h, -⟩
      cases h
  · simp only [bind, Except.bind]
    constructor
    · intro h
      split at h
      · next y hy =>
        cases h
        exact ⟨loc, rfl, hy⟩
      · cases h
    · rintro ⟨_, hloc, hx⟩
      cases hloc
      rw [hx]
      rfl
  · constructor
    · intro h
      cases h
    · rintro ⟨_, h, -⟩
      cases h

/-- Only a step down to a name leads to a link. -/
theorem isLink_of_getLast? {p : Path} {step : Step} (hlast : p.walk.getLast? = some step)
    (hstep : ∀ n, step ≠ .down n) : t.isLink p = false := by
  rw [isLink]
  split
  · next target hnode =>
    obtain ⟨loc, hloc, hx⟩ := node?_eq_ok_iff.mp hnode
    obtain ⟨x, hx', hdir⟩ := t.resolve_lands entry p loc hloc
    rw [hx, Option.some.injEq] at hx'
    subst hx'
    cases hdir step hlast hstep
  · rfl

/-- A path that ends in a slash leads to no link. -/
theorem isLink_of_endsInSlash {p : Path} (h : p.endsInSlash = true) :
    t.isLink p = false := by
  have hlast : p.walk.getLast? = some .slash := by
    rw [Path.walk, h, if_pos rfl, List.getLast?_append]
    rfl
  exact isLink_of_getLast? hlast fun n => Step.noConfusion

end FileTree

end WorkspaceAudit
