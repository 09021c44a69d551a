/-
WorkspaceAudit/Glob.lean

Patterns of file names.

A pattern is read one character at a time: `*` stands for any run of
characters, `?` for one character and every other character for itself.
A wildcard never stands for a line feed.  The whole name must match.

`Glob.covers` says when pieces can be laid end to end along a text; it tries
every length of every run.  `Glob.endings` answers the same question for all
tails of a text at once, in time proportional to the product of the two
lengths, and matching uses it from the first run on (`matchesName_eq`).

A pattern is accepted only if its matcher fits in `sizeLimit` bytes; what
each character adds to the matcher is `Piece.size`.
-/

namespace WorkspaceAudit

/-- A pattern of file names that was accepted. -/
structure Glob where
  /-- The pattern as it was written. -/
  text : String
  deriving DecidableEq, Repr

namespace Glob

/-! ### Pieces -/

/-- What one character of a pattern stands for. -/
inductive Piece
  | run
  | one
  | exactly (c : Char)
  deriving DecidableEq, Repr

/-- The piece that a character of a pattern writes. -/
def Piece.ofChar (c : Char) : Piece :=
  if c = '*' then .run else if c = '?' then .one else .exactly c

/-- The pieces of a pattern, in order. -/
def pieces (g : Glob) : List Piece :=
  g.text.toList.map Piece.ofChar

/-- Whether a wildcard may stand for this character. -/
def isWild (c : Char) : Bool :=
  c != '\n'

/-! ### Matching -/

/-- Whether `covered` holds of what some run leaves of the text. -/
def afterRun (covered : List Char → Bool) : List Char → Bool
  | [] => covered []
  | c :: s => covered (c :: s) || isWild c && afterRun covered s

/-- Whether the pieces can be laid end to end along the whole text. -/
def covers : List Piece → List Char → Bool
  | [], s => s.isEmpty
  | .run :: ps, s => afterRun (covers ps) s
  | .one :: ps, c :: s => isWild c && covers ps s
  | .exactly d :: ps, c :: s => c == d && covers ps s
  | _ :: _, [] => false

/-- The tails of a text, longest first, the empty one last. -/
def tails : List Char → List (List Char)
  | [] => [[]]
  | c :: s => (c :: s) :: tails s

/-- One more piece in front, for every tail of the text: from whether `ps`
cover each of the `tails`, whether `p :: ps` do. -/
def extend (p : Piece) : List Char → List Bool → List Bool
  | [], covered =>
    [match p with
      | .run => covered.headD false
      | _ => false]
  | c :: s, covered =>
    let shorter := covered.drop 1
    let rest := extend p s shorter
    (match p with
      | .run => covered.headD false || isWild c && rest.headD false
      | .one => isWild c && shorter.headD false
      | .exactly d => c == d && shorter.headD false) :: rest

/-- For every tail of the text, whether the pieces cover it. -/
def endings : List Piece → List Char → List Bool
  | [], s => s.map (fun _ => false) ++ [true]
  | p :: ps, s => extend p s (endings ps s)

/-- Whether the pieces cover a text, character by character up to the first
run. -/
def covered : List Piece → List Char → Bool
  | [], s => s.isEmpty
  | .run :: ps, s => (endings (.run :: ps) s).headD false
  | .one :: ps, c :: s => isWild c && covered ps s
  | .exactly d :: ps, c :: s => c == d && covered ps s
  | _ :: _, [] => false

/-- Whether a file name matches. -/
def matchesName (g : Glob) (name : String) : Bool :=
  covered g.pieces name.toList

/-! ### The size of a matcher -/

/-- The bytes that a piece adds to a matcher: one state of 32 bytes for each
byte of a literal; for any character but a line feed thirty states and ten
branches of four bytes; for a run of these one more state and two more
branches. -/
def Piece.size : Piece → Nat
  | .exactly c => 32 * c.utf8Size
  | .one => 30 * 32 + 10 * 4
  | .run => 31 * 32 + 12 * 4

/-- The bytes of a matcher for these pieces, which also has a state for each
end of the text and two of its own. -/
def matcherSize (ps : List Piece) : Nat :=
  ps.foldr (fun p n => p.size + n) (4 * 32)

/-- The size that no matcher may exceed. -/
def sizeLimit : Nat := 10485760

/-- Why a pattern is refused. -/
inductive Refusal
  /-- The matcher would exceed the size limit. -/
  | tooLarge
  deriving DecidableEq, Repr

/-- What is said about a refused pattern. -/
def Refusal.message : Refusal → String
  | .tooLarge => "Compiled regex exceeds size limit of " ++ toString sizeLimit ++ " bytes."

/-- The pattern that a text writes. -/
def ofString (text : String) : Except Refusal Glob :=
  let g : Glob := ⟨text⟩
  if matcherSize g.pieces ≤ sizeLimit then .ok g else .error .tooLarge

/-! ### The two matchers agree -/

@[simp] theorem headD_map_tails (f : List Char → Bool) (s : List Char) :
    ((tails s).map f).headD false = f s := by
  cases s <;> rfl

theorem extend_eq (p : Piece) (ps : List Piece) (s : List Char) :
    extend p s ((tails s).map (covers ps)) = (tails s).map (covers (p :: ps)) := by
  induction s with
  | nil => cases p <;> rfl
  | cons c s ih =>
    have drop_one : (((tails (c :: s)).map (covers ps)).drop 1) =
        (tails s).map (covers ps) := rfl
    cases p <;> simp only [extend, drop_one, ih, headD_map_tails] <;> rfl

/-- The table of tails holds what `covers` says of each. -/
theorem endings_eq (ps : List Piece) (s : List Char) :
    endings ps s = (tails s).map (covers ps) := by
  induction ps with
  | nil =>
    induction s with
    | nil => rfl
    | cons c s ih => simpa [endings, tails, covers] using ih
  | cons p ps ih => rw [endings, ih, extend_eq]

theorem covered_eq (ps : List Piece) (s : List Char) : covered ps s = covers ps s := by
  fun_induction covered ps s with
  | case1 s => rfl
  | case2 s ps => rw [endings_eq, headD_map_tails]
  | case3 ps c s ih => rw [ih]; rfl
  | case4 d ps c s ih => rw [ih]; rfl
  | case5 p ps h =>
    cases p with
    | run => exact (h rfl).elim
    | one => rfl
    | exactly d => rfl

/-- A name matches exactly if the pieces of the pattern cover it. -/
theorem matchesName_eq (g : Glob) (name : String) :
    g.matchesName name = covers g.pieces name.toList :=
  covered_eq g.pieces name.toList

end Glob

end WorkspaceAudit
