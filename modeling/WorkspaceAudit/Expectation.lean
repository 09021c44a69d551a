/-
WorkspaceAudit/Expectation.lean

What a workspace pins: for each dependency one version and one path.

An `Expectations` is an ordered table.  Its order is the order in which
deviations are reported, and no name stands in it twice; the type carries
that, so every table in the program has it.  `ofEntries?` accepts a list
exactly if the names are distinct (`ofEntries?_eq_ok_iff`) and otherwise
names the first entry whose name stood before it.
-/

namespace WorkspaceAudit

/-- The version and the path that one dependency must have. -/
structure Expectation where
  name : String
  version : String
  path : String
  deriving DecidableEq, Repr

/-- Expectations in order, no name twice. -/
structure Expectations where
  entries : List Expectation
  distinct : (entries.map Expectation.name).Nodup
  deriving DecidableEq

namespace Expectations

/-! ### Building -/

/-- The first of these names that stands in `seen` or before itself. -/
def firstRepeated (seen : List String) : List String → Option String
  | [] => none
  | n :: ns => if n ∈ seen then some n else firstRepeated (n :: seen) ns

theorem firstRepeated_eq_none_iff {seen ns : List String} :
    firstRepeated seen ns = none ↔ ns.Nodup ∧ ∀ n ∈ ns, n ∉ seen := by
  induction ns generalizing seen with
  | nil => simp [firstRepeated]
  | cons n ns ih =>
    unfold firstRepeated
    split
    · next h => simp [h]
    · next h =>
      rw [ih]
      simp only [List.nodup_cons, List.mem_cons, not_or, forall_eq_or_imp]
      constructor
      · rintro ⟨hd, hs⟩
        exact ⟨⟨fun hn => (hs n hn).1 rfl, hd⟩, h, fun m hm => (hs m hm).2⟩
      · rintro ⟨⟨hn, hd⟩, -, hs⟩
        exact ⟨hd, fun m hm => ⟨fun e => hn (e ▸ hm), hs m hm⟩⟩

/-- The table of these entries, or the name that the first repeated entry
repeats. -/
def ofEntries? (entries : List Expectation) : Except String Expectations :=
  match h : firstRepeated [] (entries.map Expectation.name) with
  | some n => .error n
  | none => .ok ⟨entries, (firstRepeated_eq_none_iff.1 h).1⟩

/-- Said of a name that is listed twice. -/
def repeatedMessage (name : String) : String :=
  "Dependency " ++ name ++ " is listed more than once in the expectation table"

/-- The table that holds where nothing else is configured. -/
def builtin : Expectations where
  entries :=
    [⟨"solana-program", "2.1.0", "./solana-program"⟩,
     ⟨"solana-sdk", "1.25.0", "./solana-sdk"⟩,
     ⟨"spl-program-error", "0.4.2", "./solana-program-library/libraries/program-error"⟩,
     ⟨"curve25519-dalek", "5.0.0-pre.0", "./curve25519-dalek"⟩]
  distinct := by decide

/-! ### Asking -/

/-- The entry of that name. -/
def get? (t : Expectations) (name : String) : Option Expectation :=
  t.entries.find? fun e => e.name == name

/-- The number of entries. -/
def size (t : Expectations) : Nat :=
  t.entries.length

/-- Whether there is no entry. -/
def isEmpty (t : Expectations) : Bool :=
  t.entries.isEmpty

/-! ### What building keeps -/

/-- A list is accepted exactly if its names are distinct, and then as it
stands. -/
theorem ofEntries?_eq_ok_iff {entries : List Expectation} {t : Expectations} :
    ofEntries? entries = .ok t ↔ t.entries = entries := by
  unfold ofEntries?
  split
  · next n h =>
    simp only [reduceCtorEq, false_iff]
    rintro rfl
    rw [firstRepeated_eq_none_iff.2 ⟨t.distinct, by simp⟩] at h
    cases h
  · next h =>
    simp only [Except.ok.injEq]
    constructor
    · rintro rfl; rfl
    · rintro rfl; rfl

end Expectations

end WorkspaceAudit
