/-
WorkspaceAudit/Proofs/Tree/Stations.lean

What a path is resolved through, and what a new file does to that.

`stations` are the locations that the walk of a path comes to below the
directory that it starts from, the last one included, whatever stands there
and whether or not the path is short enough to be opened.

After files were written in `S` a path is walked as before, up to the first
station in `S` where nothing was (`Diverges`); there a walk that ended, or
failed for want of a file, finds the new one or cannot pass it.  So a path
without a station in `S` is resolved as before (`Written.resolve_eq`), and
what was found before is found again (`Written.resolve_found`).
-/
import WorkspaceAudit.Proofs.Tree.Writes

namespace WorkspaceAudit.FileTree

/-! ### Stations -/

/-- The locations that a walk from a directory comes to; `onLink` goes on at a
link, from its directory and its target, with the steps after it. -/
def stationsFrom (t : FileTree) (onLink : Trail → Path → List Step → List Location) :
    Trail → List Step → List Location
  | _, [] => []
  | here, .stay :: steps => stationsFrom t onLink here steps
  | here, .slash :: steps => stationsFrom t onLink here steps
  | here, .up :: steps => stationsFrom t onLink here.tail steps
  | _, .tooLong :: _ => []
  | here, .down n :: steps =>
    match (here.entries t).lookup n with
    | none => []
    | some (.link target) => (here.location ++ [n]) :: onLink here target steps
    | some (.dir es) => (here.location ++ [n]) :: stationsFrom t onLink ((n, es) :: here) steps
    | some _ => [here.location ++ [n]]

/-- The locations that a walk comes to, through at most so many links. -/
def stationsLinks (t : FileTree) : Nat → Trail → List Step → List Location
  | 0 => stationsFrom t fun _ _ _ => []
  | links + 1 => stationsFrom t fun here target steps =>
    if target.isEmpty then []
    else stationsLinks t links (if target.isAbsolute then [] else here) (target.walk ++ steps)

/-- The locations that a path is resolved through, and the one that it is
resolved to. -/
def stations (t : FileTree) (p : Path) : List Location :=
  t.stationsLinks linkLimit (t.start p) p.walk

/-! ### Looking up along sound trails -/

variable {t t' : FileTree} {S : Location → Prop}

theorem Trail.Sound.lookup {here : Trail} (h : here.Sound t) (n : Name) :
    (here.entries t).lookup n = t.at? (here.location ++ [n]) := by
  rw [FileTree.at?, Entries.at?_append h.at?, Entries.at?_singleton]

/-- Trails of the two trees through directories of the same names. -/
structure Beside (t t' : FileTree) (here here' : Trail) : Prop where
  sound : here.Sound t
  sound' : here'.Sound t'
  names : here.map Prod.fst = here'.map Prod.fst

namespace Beside

variable {here here' : Trail}

theorem nil : Beside t t' [] [] := ⟨.nil, .nil, rfl⟩

theorem location (h : Beside t t' here here') : here.location = here'.location := by
  rw [Trail.location, Trail.location, h.names]

theorem tail (h : Beside t t' here here') : Beside t t' here.tail here'.tail :=
  ⟨h.sound.tail, h.sound'.tail, by rw [List.map_tail, List.map_tail, h.names]⟩

theorem cons (h : Beside t t' here here') {n : Name} {es es' : Entries}
    (hn : (here.entries t).lookup n = some (.dir es))
    (hn' : (here'.entries t').lookup n = some (.dir es')) :
    Beside t t' ((n, es) :: here) ((n, es') :: here') :=
  ⟨.cons h.sound hn, .cons h.sound' hn', by rw [List.map_cons, List.map_cons, h.names]⟩

end Beside

/-- What stands under a name before and after files were written in `S`. -/
inductive LookedUp (S : Location → Prop) (loc : Location) : Option Node → Option Node → Prop
  | none : LookedUp S loc none none
  | file {b b' : Bytes} : LookedUp S loc (some (.file b)) (some (.file b'))
  | dir {es es' : Entries} : LookedUp S loc (some (.dir es)) (some (.dir es'))
  | link {target : Path} : LookedUp S loc (some (.link target)) (some (.link target))
  | device {d : Device} : LookedUp S loc (some (.device d)) (some (.device d))
  | new {b : Bytes} : S loc → LookedUp S loc none (some (.file b))

theorem Written.lookedUp (h : Written S t t') (loc : Location) :
    LookedUp S loc (t.at? loc) (t'.at? loc) := by
  have hs := h.shape loc
  rcases e : t.at? loc with - | x <;> rcases e' : t'.at? loc with - | x' <;> rw [e, e'] at hs
  · exact .none
  · rcases hs with hs | ⟨hloc, -, hs⟩
    · cases hs
    · cases x' <;> cases hs
      exact .new hloc
  · rcases hs with hs | ⟨-, hs, -⟩ <;> cases hs
  · rcases hs with hs | ⟨-, hs, -⟩
    · cases x <;> cases x' <;> cases hs
      · exact .file
      · exact .dir
      · exact .link
      · exact .device
    · cases hs

theorem Written.lookup (h : Written S t t') {here here' : Trail}
    (hb : Beside t t' here here') (n : Name) :
    LookedUp S (here'.location ++ [n]) ((here.entries t).lookup n)
      ((here'.entries t').lookup n) := by
  rw [hb.sound.lookup, hb.sound'.lookup, hb.location]
  exact h.lookedUp _

theorem Written.start (h : Written S t t') (p : Path) :
    Beside t t' (t.start p) (t'.start p) := by
  rw [FileTree.start, FileTree.start]
  split
  · exact .nil
  · rw [← h.current, FileTree.trail, FileTree.trail]
    refine List.foldl_rel (r := Beside t t') .nil fun n _ here here' hb => ?_
    have hl := h.lookup hb n
    generalize hx : (Trail.entries t here).lookup n = x at hl
    generalize hx' : (Trail.entries t' here').lookup n = x' at hl
    cases hl with
    | dir => exact hb.cons hx hx'
    | _ => exact hb

/-! ### Walking after a write -/

/-- What a walk answers before and after a file is new at a location that it
comes to. -/
inductive Diverges (aim : Aim) (loc : Location) :
    Except FileError Target → Except FileError Target → Prop
  | filled {dir : Location} {n : Name} : dir ++ [n] = loc → aim.vacant = true →
      Diverges aim loc (.ok (.vacant dir n)) (.ok (.found loc))
  | reached : aim.vacant = false → Diverges aim loc (.error .missing) (.ok (.found loc))
  | blocked : Diverges aim loc (.error .missing) (.error .notDirectory)

/-- Two answers are the same, or diverge at a station in `S` with a file. -/
def Kept (S : Location → Prop) (t' : FileTree) (aim : Aim) (stations : List Location)
    (r r' : Except FileError Target) : Prop :=
  r = r' ∨ ∃ loc ∈ stations, S loc ∧ (∃ b, t'.at? loc = some (.file b)) ∧ Diverges aim loc r r'

theorem Kept.cons {aim : Aim} {stations : List Location} {r r' : Except FileError Target}
    (h : Kept S t' aim stations r r') (loc : Location) : Kept S t' aim (loc :: stations) r r' :=
  h.imp_right fun ⟨loc', hloc', hd⟩ => ⟨loc', List.mem_cons_of_mem _ hloc', hd⟩

section Walk

variable (h : Written S t t') {aim : Aim} (haim : aim.vacant = true → aim.file = true)
include h haim

theorem Written.walkFrom_kept
    {onLink onLink' : Trail → Path → List Step → Except FileError Target}
    {stationsOnLink : Trail → Path → List Step → List Location}
    (hlink : ∀ {here here' : Trail}, Beside t t' here here' → ∀ target steps,
      Kept S t' aim (stationsOnLink here' target steps) (onLink here target steps)
        (onLink' here' target steps))
    (steps : List Step) {here here' : Trail} (hb : Beside t t' here here') :
    Kept S t' aim (stationsFrom t' stationsOnLink here' steps)
      (walkFrom t aim onLink here steps) (walkFrom t' aim onLink' here' steps) := by
  -- the trails go through the same names until a name is looked up that is new
  induction steps generalizing here here' with
  | nil =>
    rw [walkFrom, walkFrom, hb.location]
    exact .inl rfl
  | cons step steps ih =>
    cases step with
    | stay => exact ih hb
    | slash => exact ih hb
    | up => exact ih hb.tail
    | tooLong => exact .inl rfl
    | down n =>
      rw [walkFrom, walkFrom, stationsFrom]
      by_cases hslash : (aim.file && steps == [.slash]) = true
      · rw [if_pos hslash, if_pos hslash]
        exact .inl rfl
      rw [if_neg hslash, if_neg hslash]
      have hl := h.lookup hb n
      generalize hx : (Trail.entries t here).lookup n = x at hl
      generalize hx' : (Trail.entries t' here').lookup n = x' at hl
      cases hl with
      | none => exact .inl (by rw [hb.location])
      | file => exact .inl (by rw [hb.location])
      | device => exact .inl (by rw [hb.location])
      | dir => exact (ih (hb.cons hx hx')).cons _
      | link =>
        dsimp only
        by_cases hend : (steps.isEmpty && !aim.follow) = true
        · rw [if_pos hend, if_pos hend, hb.location]
          exact .inl rfl
        · rw [if_neg hend, if_neg hend]
          exact (hlink hb _ steps).cons _
      | @new b hloc =>
        refine .inr ⟨_, List.mem_singleton.mpr rfl, hloc, ⟨b, ?_⟩, ?_⟩
        · rw [← hb.sound'.lookup, hx']
        cases steps with
        | nil =>
          -- the new file is where the path ends
          cases hv : aim.vacant with
          | true => exact .filled (by rw [hb.location]) hv
          | false => exact .reached hv
        | cons step' steps =>
          -- the new file is where a directory is wanted
          have hvacant : (aim.vacant && ((step' :: steps).isEmpty || step' :: steps == [.slash])) =
              false := by
            cases hv : aim.vacant with
            | true => simpa [haim hv] using hslash
            | false => rfl
          rw [hvacant]
          exact .blocked

theorem Written.walkLinks_kept (links : Nat) (steps : List Step) {here here' : Trail}
    (hb : Beside t t' here here') :
    Kept S t' aim (stationsLinks t' links here' steps) (walkLinks t aim links here steps)
      (walkLinks t' aim links here' steps) := by
  induction links generalizing here here' steps with
  | zero => exact h.walkFrom_kept haim (fun _ _ _ => .inl rfl) steps hb
  | succ links ih =>
    refine h.walkFrom_kept haim ?_ steps hb
    intro here here' hb target steps
    by_cases hempty : target.isEmpty = true
    · rw [if_pos hempty, if_pos hempty, if_pos hempty]
      exact .inl rfl
    rw [if_neg hempty, if_neg hempty, if_neg hempty]
    by_cases habs : target.isAbsolute = true
    · rw [if_pos habs, if_pos habs]
      exact ih _ .nil
    · rw [if_neg habs, if_neg habs]
      exact ih _ hb

/-- A path is resolved as before, or diverges at a station in `S`. -/
theorem Written.resolve_kept (p : Path) :
    Kept S t' aim (t'.stations p) (t.resolve aim p) (t'.resolve aim p) := by
  rw [resolve, resolve, stations]
  split
  · exact .inl rfl
  split
  · exact .inl rfl
  split
  · exact .inl rfl
  · exact h.walkLinks_kept haim linkLimit p.walk (h.start p)

/-- **A path that does not come to what was written is resolved as before.** -/
theorem Written.resolve_eq {p : Path} (hp : ∀ loc ∈ t'.stations p, ¬ S loc) :
    t.resolve aim p = t'.resolve aim p := by
  rcases h.resolve_kept haim p with heq | ⟨loc, hloc, hS, -, -⟩
  · exact heq
  · exact absurd hS (hp loc hloc)

/-- What a path led to it still leads to. -/
theorem Written.resolve_found {p : Path} {loc : Location}
    (hloc : t.resolve aim p = .ok (.found loc)) : t'.resolve aim p = .ok (.found loc) := by
  rcases h.resolve_kept haim p with heq | ⟨loc', -, -, -, hd⟩
  · rw [← heq, hloc]
  · rw [hloc] at hd
    cases hd

end Walk

/-! ### Looking after a write -/

/-- What a look at a path finds before and after files were written. -/
inductive SeenAgain : Except FileError Node → Except FileError Node → Prop
  | same {x x' : Node} : x.shape = x'.shape → SeenAgain (.ok x) (.ok x')
  | nothing (e e' : FileError) : SeenAgain (.error e) (.error e')
  | new (e : FileError) (b : Bytes) : SeenAgain (.error e) (.ok (.file b))

namespace Written

variable (h : Written S t t') {p : Path} {loc : Location}
include h

theorem node?_seenAgain {aim : Aim} (haim : aim.vacant = false) (p : Path) :
    SeenAgain (t.node? aim p) (t'.node? aim p) := by
  have hkept : Kept S t' aim (t'.stations p) _ _ := h.resolve_kept (by simp [haim]) p
  rw [node?, node?]
  generalize t.resolve aim p = r at hkept ⊢
  generalize t'.resolve aim p = r' at hkept ⊢
  rcases hkept with rfl | ⟨loc', -, -, ⟨b, hb⟩, hd⟩
  · rcases r with e | ⟨loc⟩ | ⟨dir, n⟩
    · exact .nothing _ _
    · have hl := h.lookedUp loc
      simp only [bind, Except.bind]
      generalize t.at? loc = o at hl ⊢
      generalize t'.at? loc = o' at hl ⊢
      cases hl with
      | none => exact .nothing _ _
      | new => exact .new _ _
      | file => exact .same rfl
      | dir => exact .same rfl
      | link => exact .same rfl
      | device => exact .same rfl
    · exact .nothing _ _
  · cases hd with
    | filled _ hv =>
      rw [haim] at hv
      cases hv
    | reached =>
      simp only [bind, Except.bind, hb]
      exact .new _ _
    | blocked => exact .nothing _ _

/-- What was there still is. -/
theorem hasPath (hp : t.hasPath p = true) : t'.hasPath p = true := by
  rw [FileTree.hasPath] at hp ⊢
  have hs : SeenAgain (t.node? existing p) (t'.node? existing p) := h.node?_seenAgain rfl p
  generalize t.node? existing p = r at hp hs
  generalize t'.node? existing p = r' at hs ⊢
  cases hs with
  | same => rfl
  | nothing => exact hp
  | new => rfl

/-- A directory is where one was, and nowhere else. -/
theorem isDirectory_eq (p : Path) : t'.isDirectory p = t.isDirectory p := by
  rw [isDirectory, isDirectory]
  have hs : SeenAgain (t.node? existing p) (t'.node? existing p) := h.node?_seenAgain rfl p
  generalize t.node? existing p = r at hs ⊢
  generalize t'.node? existing p = r' at hs ⊢
  cases hs with
  | @same x x' hshape => cases x <;> cases x' <;> cases hshape <;> rfl
  | nothing => rfl
  | new => rfl

/-- A link is where one was, and nowhere else. -/
theorem isLink_eq (p : Path) : t'.isLink p = t.isLink p := by
  rw [isLink, isLink]
  have hs : SeenAgain (t.node? entry p) (t'.node? entry p) := h.node?_seenAgain rfl p
  generalize t.node? entry p = r at hs ⊢
  generalize t'.node? entry p = r' at hs ⊢
  cases hs with
  | @same x x' hshape => cases x <;> cases x' <;> cases hshape <;> rfl
  | nothing => rfl
  | new => rfl

/-- A write goes where it would have gone, or still nowhere. -/
theorem writesTo_eq_ok_iff : t'.writesTo p = .ok loc ↔ t.writesTo p = .ok loc := by
  have hends : t.Ends (t.resolve writable p) := resolve_ends rfl p
  have hkept : Kept S t' writable (t'.stations p) _ _ := h.resolve_kept (fun _ => rfl) p
  rw [writesTo, writesTo]
  generalize t.resolve writable p = r at hends hkept ⊢
  generalize t'.resolve writable p = r' at hkept ⊢
  rcases hkept with rfl | ⟨loc', -, -, ⟨b, hb⟩, hd⟩
  · cases hends with
    | error e => rfl
    | vacant hdir hn => rfl
    | @found found x hx hlink =>
      have hl := h.lookedUp found
      dsimp only
      rw [hx] at hl ⊢
      generalize t'.at? found = o at hl ⊢
      cases hl <;> rfl
  · cases hd with
    | reached hv => cases hv
    | blocked => simp
    | filled heq hv =>
      dsimp only
      rw [hb, heq]

end Written

/-! ### Reading after a write -/

/-- A walk that goes down and ends somewhere follows a link, enters a directory, or
ends at what is neither. -/
theorem walkFrom_down_found {aim : Aim} (haim : aim.follow = true)
    {onLink : Trail → Path → List Step → Except FileError Target} {here : Trail} {n : Name}
    {steps : List Step} {loc : Location}
    (h : walkFrom t aim onLink here (.down n :: steps) = .ok (.found loc)) :
    (∃ target, (here.entries t).lookup n = some (.link target) ∧
        onLink here target steps = .ok (.found loc)) ∨
      (∃ es, (here.entries t).lookup n = some (.dir es) ∧
        walkFrom t aim onLink ((n, es) :: here) steps = .ok (.found loc)) ∨
      ∃ x, (here.entries t).lookup n = some x ∧ (∀ target, x ≠ .link target) ∧
        (∀ es, x ≠ .dir es) ∧ loc = here.location ++ [n] := by
  rw [walkFrom] at h
  split at h
  · cases h
  rcases hn : (here.entries t).lookup n with - | x
  · rw [hn] at h
    dsimp only at h
    split at h <;> cases h
  rw [hn] at h
  cases x with
  | link target =>
    dsimp only at h
    rw [haim, Bool.not_true, Bool.and_false] at h
    exact .inl ⟨target, rfl, h⟩
  | dir es => exact .inr (.inl ⟨es, rfl, h⟩)
  | file b =>
    dsimp only at h
    split at h
    · cases h
      refine .inr (.inr ⟨.file b, rfl, fun _ hlink => ?_, fun _ hdir => ?_, rfl⟩)
      · cases hlink
      · cases hdir
    · cases h
  | device d =>
    dsimp only at h
    split at h
    · cases h
      refine .inr (.inr ⟨.device d, rfl, fun _ hlink => ?_, fun _ hdir => ?_, rfl⟩)
      · cases hlink
      · cases hdir
    · cases h

/-- A walk to its end comes to what it leads to, unless that is a directory. -/
theorem walkFrom_station {aim : Aim} (haim : aim.follow = true)
    {onLink : Trail → Path → List Step → Except FileError Target}
    {stationsOnLink : Trail → Path → List Step → List Location} {loc : Location}
    (hloc : ∀ es, t.at? loc ≠ some (.dir es))
    (hlink : ∀ {here : Trail}, here.Sound t → ∀ target steps,
      onLink here target steps = .ok (.found loc) → loc ∈ stationsOnLink here target steps)
    (steps : List Step) {here : Trail} (h : here.Sound t)
    (hwalk : walkFrom t aim onLink here steps = .ok (.found loc)) :
    loc ∈ stationsFrom t stationsOnLink here steps := by
  induction steps generalizing here with
  | nil =>
    cases hwalk
    exact absurd h.at? (hloc _)
  | cons step steps ih =>
    cases step with
    | stay => exact ih h hwalk
    | slash => exact ih h hwalk
    | up => exact ih h.tail hwalk
    | tooLong => cases hwalk
    | down n =>
      rw [stationsFrom]
      rcases walkFrom_down_found haim hwalk with
        ⟨target, hn, hwalk⟩ | ⟨es, hn, hwalk⟩ | ⟨x, hn, hnolink, hnodir, rfl⟩
      · rw [hn]
        exact List.mem_cons_of_mem _ (hlink h target steps hwalk)
      · rw [hn]
        exact List.mem_cons_of_mem _ (ih (.cons h hn) hwalk)
      · rw [hn]
        cases x with
        | dir es => exact absurd rfl (hnodir es)
        | link target => exact absurd rfl (hnolink target)
        | file b => exact List.mem_singleton.mpr rfl
        | device d => exact List.mem_singleton.mpr rfl

theorem walkLinks_station {aim : Aim} (haim : aim.follow = true) {loc : Location}
    (hloc : ∀ es, t.at? loc ≠ some (.dir es)) (links : Nat) (steps : List Step) {here : Trail}
    (h : here.Sound t) (hwalk : walkLinks t aim links here steps = .ok (.found loc)) :
    loc ∈ stationsLinks t links here steps := by
  induction links generalizing here steps with
  | zero => exact walkFrom_station haim hloc (fun _ _ _ h => by cases h) steps h hwalk
  | succ links ih =>
    refine walkFrom_station haim hloc ?_ steps h hwalk
    intro here h target steps hwalk
    split at hwalk
    · cases hwalk
    · next hempty =>
      rw [if_neg hempty]
      refine ih _ ?_ hwalk
      split
      · exact .nil
      · exact h

/-- What a path is resolved to is a station of it, unless it is a directory. -/
theorem mem_stations_of_resolve {p : Path} {loc : Location}
    (h : t.resolve existing p = .ok (.found loc)) (hloc : ∀ es, t.at? loc ≠ some (.dir es)) :
    loc ∈ t.stations p := by
  rw [resolve] at h
  split at h
  · cases h
  split at h
  · cases h
  split at h
  · cases h
  · exact walkLinks_station rfl hloc linkLimit p.walk (start_sound t p) h

/-- **A file is read as before** if its path does not come to what was written. -/
theorem Written.readText_eq (h : Written S t t') {p : Path}
    (hp : ∀ loc ∈ t'.stations p, ¬ S loc) : t'.readText p = t.readText p := by
  rw [readText, readText, readBytes, readBytes, node?, node?,
    ← h.resolve_eq (by simp [existing]) hp]
  rcases hr : t.resolve existing p with e | ⟨loc⟩ | ⟨dir, n⟩
  · rfl
  · have hr' := h.resolve_found (by simp [existing]) hr
    obtain ⟨x, hx⟩ := at?_of_resolve hr
    have hl := h.lookedUp loc
    rw [hx] at hl
    generalize hx' : t'.at? loc = o' at hl
    simp only [bind, Except.bind, hx, hx']
    cases hl with
    | dir => rfl
    | link => rfl
    | device => rfl
    | @file b b' =>
      -- the file is a station, so it is not one that was written
      have hout : ¬ S loc := hp loc (mem_stations_of_resolve hr' (by rw [hx']; simp))
      have hface := h.outside loc hout
      rw [hx, hx'] at hface
      cases hface
      rfl
  · rfl

end WorkspaceAudit.FileTree
