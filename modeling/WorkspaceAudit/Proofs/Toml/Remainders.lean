/-
WorkspaceAudit/Proofs/Toml/Remainders.lean

What readers leave is an end of their text.

Whatever a reader answers, a value or a failure of either sort, what was left of the
text then can be asked for (`Outcome.rest`).  A reader stays in its text if that is
always an end of it (`Reader.Stays`).  Each way to build a reader keeps this, so a
reader is shown to stay by going through its parts once.
-/
import WorkspaceAudit.Proofs.Toml.Reading

namespace WorkspaceAudit.Toml

variable {α β : Type}

/-- What is left of the text, or was when reading failed. -/
def Outcome.rest : Outcome α → List Char
  | .done _ r => r
  | .miss f => f.rest
  | .stop f => f.rest

namespace Reader

/-- The reader leaves an end of its text, whatever it answers. -/
def Stays (p : Reader α) : Prop :=
  ∀ s, (p s).rest <:+ s

section Rules

variable {p q : Reader α} {f : α → Reader β} {s r : List Char} {a : α} {e : Failure}

theorem Stays.done (hp : Stays p) (h : p s = .done a r) : r <:+ s :=
  (congrArg Outcome.rest h ▸ hp s : (Outcome.done a r).rest <:+ s)

theorem Stays.miss (hp : Stays p) (h : p s = .miss e) : e.rest <:+ s :=
  (congrArg Outcome.rest h ▸ hp s : (Outcome.miss e : Outcome α).rest <:+ s)

theorem Stays.stop (hp : Stays p) (h : p s = .stop e) : e.rest <:+ s :=
  (congrArg Outcome.rest h ▸ hp s : (Outcome.stop e : Outcome α).rest <:+ s)

/-! ### Ways to build readers -/

theorem Stays.pure (a : α) : Stays (Pure.pure a) :=
  List.suffix_refl

theorem Stays.bind (hp : Stays p) (hf : ∀ a, Stays (f a)) : Stays (p >>= f) := by
  intro s
  rw [bind_apply]
  split
  · next a r h => exact (hf a r).trans (hp.done h)
  · next e h => exact hp.miss h
  · next e h => exact hp.stop h

theorem stays_fail : Stays (fail : Reader α) :=
  List.suffix_refl

theorem stays_refuse (c : Cause) : Stays (refuse c : Reader α) :=
  List.suffix_refl

theorem Stays.firm (hp : Stays p) : Stays (firm p) := by
  intro s
  rw [Reader.firm]
  split
  · next e h => exact hp.miss h
  · exact hp s

theorem Stays.mapFailure {g : Failure → Failure} (hg : ∀ e, (g e).rest = e.rest) (hp : Stays p) :
    Stays (mapFailure g p) := by
  intro s
  rw [Reader.mapFailure]
  split
  · next a r h => exact hp.done h
  · next e h =>
    rw [Outcome.rest, hg]
    exact hp.miss h
  · next e h =>
    rw [Outcome.rest, hg]
    exact hp.stop h

theorem Stays.label (hp : Stays p) (what : String) : Stays (label what p) :=
  hp.mapFailure fun _ => rfl

theorem Stays.expecting (hp : Stays p) (items : List Expected) : Stays (expecting items p) :=
  hp.mapFailure fun _ => rfl

theorem Stays.checked (hp : Stays p) (g : α → Except Cause β) : Stays (checked g p) := by
  intro s
  rw [Reader.checked]
  split
  · next a r h =>
    split
    · exact hp.done h
    · exact List.suffix_refl s
  · next e h => exact hp.miss h
  · next e h => exact hp.stop h

theorem Stays.orElse (hp : Stays p) (hq : Stays q) : Stays (p.orElse q) := by
  intro s
  rw [Reader.orElse]
  split
  · exact hq s
  · exact hp s

theorem Stays.optional (hp : Stays p) : Stays (optional p) := by
  intro s
  rw [Reader.optional]
  split
  · next a r h => exact hp.done h
  · exact List.suffix_refl s
  · next e h => exact hp.stop h

end Rules

/-! ### Characters -/

theorem stays_one (test : Char → Bool) : Stays (one test) := by
  intro s
  fun_cases one test s with
  | case1 c r => exact List.suffix_cons c r
  | case2 c r => exact List.suffix_refl _
  | case3 => exact List.suffix_refl _

theorem stays_sign (c : Char) : Stays (sign c) := by
  intro s
  fun_cases sign c s with
  | case1 r => exact List.suffix_cons c r
  | case2 d r => exact List.suffix_refl _
  | case3 => exact List.suffix_refl _

theorem dropStart?_suffix {cs s r : List Char} (h : dropStart? cs s = some r) : r <:+ s := by
  fun_induction dropStart? cs s with
  | case1 s => exact Option.some.inj h ▸ List.suffix_refl s
  | case2 cs d s ih => exact (ih h).trans (List.suffix_cons d s)
  | case3 c cs d s hne => cases h
  | case4 c cs => cases h

theorem stays_signs (cs : List Char) : Stays (signs cs) := by
  intro s
  rw [signs]
  split
  · next r h => exact dropStart?_suffix h
  · exact List.suffix_refl s

theorem stays_many (test : Char → Bool) : Stays (many test) :=
  fun _ => List.dropWhile_suffix test

theorem stays_many1 (test : Char → Bool) : Stays (many1 test) := by
  intro s
  rw [many1]
  split
  · exact List.suffix_refl s
  · exact List.dropWhile_suffix test

theorem stays_finish : Stays finish := by
  intro s
  cases s with
  | nil => exact List.suffix_refl []
  | cons c r => exact List.suffix_refl (c :: r)

/-! ### Repetition -/

section Repetition

variable {item : Reader α} {separator : Reader Unit}

theorem stays_separatedFrom (hitem : Stays item) (hseparator : Stays separator) (n : Nat)
    (soFar : List α) : Stays (separatedFrom item separator n soFar) := by
  intro s
  fun_induction separatedFrom item separator n soFar s with
  | case1 soFar s => exact List.suffix_refl s
  | case2 n soFar s e h => exact List.suffix_refl s
  | case3 n soFar s e h => exact hseparator.stop h
  | case4 n soFar s u r h e h' => exact List.suffix_refl s
  | case5 n soFar s u r h e h' => exact (hitem.stop h').trans (hseparator.done h)
  | case6 n soFar s u r h a r' h' ih => exact ih.trans ((hitem.done h').trans (hseparator.done h))

theorem Stays.separated (hitem : Stays item) (hseparator : Stays separator) :
    Stays (separated item separator) := by
  intro s
  rw [Reader.separated]
  split
  · next a r h =>
    exact (stays_separatedFrom hitem hseparator r.length [a] r).trans (hitem.done h)
  · next e h => exact hitem.miss h
  · next e h => exact hitem.stop h

theorem Stays.separatedOrNone (hitem : Stays item) (hseparator : Stays separator) :
    Stays (separatedOrNone item separator) := by
  intro s
  rw [Reader.separatedOrNone]
  split
  · exact List.suffix_refl s
  · exact hitem.separated hseparator s

end Repetition

end Reader
end WorkspaceAudit.Toml
