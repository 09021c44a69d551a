/-
WorkspaceAudit/Proofs/Toml/Reading.lean

What readers of a TOML text read.

`Reads p s a r` says that the reader `p` answers a text `s` with the value `a` and
leaves `r`, and `Misses p s` that another reader may be tried there.  Each way to
build a reader has a rule for what it reads; with these a reading is composed like
the reader itself.  Lists with separators are read one item after another (`More`).
-/
import WorkspaceAudit.Toml.Text

namespace WorkspaceAudit.Toml

namespace Reader

variable {α β : Type}

/-- The reader answers with this value and leaves this rest. -/
def Reads (p : Reader α) (s : List Char) (a : α) (r : List Char) : Prop :=
  p s = .done a r

/-- Another reader may be tried here. -/
def Misses (p : Reader α) (s : List Char) : Prop :=
  ∃ f, p s = .miss f

section Rules

variable {p q : Reader α} {s t r : List Char} {a : α} {b : β}

theorem Reads.pure (a : α) (s : List Char) : Reads (Pure.pure a) s a s :=
  rfl

theorem bind_apply (p : Reader α) (f : α → Reader β) (s : List Char) :
    (p >>= f) s =
      match p s with
      | .done a r => f a r
      | .miss e => .miss e
      | .stop e => .stop e :=
  rfl

theorem Reads.bind {f : α → Reader β} (hp : Reads p s a t) (hf : Reads (f a) t b r) :
    Reads (p >>= f) s b r := by
  rw [Reads, bind_apply, hp]
  exact hf

theorem Misses.bind {f : α → Reader β} (hp : Misses p s) : Misses (p >>= f) s := by
  obtain ⟨e, he⟩ := hp
  exact ⟨e, by rw [bind_apply, he]⟩

theorem Reads.firm (hp : Reads p s a r) : Reads (firm p) s a r := by
  rw [Reads, Reader.firm, hp]

theorem Reads.mapFailure (f : Failure → Failure) (hp : Reads p s a r) :
    Reads (mapFailure f p) s a r := by
  rw [Reads, Reader.mapFailure, hp]

theorem Reads.label (what : String) (hp : Reads p s a r) : Reads (label what p) s a r :=
  hp.mapFailure _

theorem Reads.expecting (items : List Expected) (hp : Reads p s a r) :
    Reads (expecting items p) s a r :=
  hp.mapFailure _

theorem Reads.checked {f : α → Except Cause β} (hp : Reads p s a r) (hf : f a = .ok b) :
    Reads (checked f p) s b r := by
  rw [Reads, Reader.checked, hp]
  dsimp only
  rw [hf]

/-- What is checked is read where the reader does the same. -/
theorem Reads.checked_congr {f : α → Except Cause β} (h : Reads (Reader.checked f p) s b r)
    (hp : p t = p s) : Reads (Reader.checked f p) t b r := by
  rw [Reads, Reader.checked] at h ⊢
  rw [hp]
  rcases hs : p s with ⟨a, r'⟩ | e | e
  · rw [hs] at h
    dsimp only at h ⊢
    rcases hf : f a with c | b'
    · rw [hf] at h
      cases h
    · rw [hf] at h
      exact h
  · rw [hs] at h
    cases h
  · rw [hs] at h
    cases h

theorem Reads.orElse (hp : Reads p s a r) (q : Reader α) : Reads (p.orElse q) s a r := by
  rw [Reads, Reader.orElse, hp]

theorem Misses.orElse (hp : Misses p s) (hq : Reads q s a r) : Reads (p.orElse q) s a r := by
  obtain ⟨e, he⟩ := hp
  rw [Reads, Reader.orElse, he]
  exact hq

theorem Misses.orElse_misses (hp : Misses p s) (hq : Misses q s) : Misses (p.orElse q) s := by
  obtain ⟨e, he⟩ := hp
  obtain ⟨e', he'⟩ := hq
  exact ⟨e', by rw [Reader.orElse, he]; exact he'⟩

theorem Misses.mapFailure (f : Failure → Failure) (hp : Misses p s) :
    Misses (mapFailure f p) s := by
  obtain ⟨e, he⟩ := hp
  exact ⟨f e, by rw [Reader.mapFailure, he]⟩

theorem Misses.label (what : String) (hp : Misses p s) : Misses (label what p) s :=
  hp.mapFailure _

theorem Reads.misses_bind {f : α → Reader β} (hp : Reads p s a t) (hf : Misses (f a) t) :
    Misses (p >>= f) s := by
  obtain ⟨e, he⟩ := hf
  exact ⟨e, by rw [bind_apply, hp]; exact he⟩

theorem Reads.optional (hp : Reads p s a r) : Reads (optional p) s (some a) r := by
  rw [Reads, Reader.optional, hp]

theorem Misses.optional (hp : Misses p s) : Reads (optional p) s none s := by
  obtain ⟨e, he⟩ := hp
  rw [Reads, Reader.optional, he]

end Rules

/-! ### Characters -/

theorem reads_sign (c : Char) (r : List Char) : Reads (sign c) (c :: r) () r :=
  if_pos rfl

theorem misses_sign {c : Char} {s : List Char} (h : s.head? ≠ some c) : Misses (sign c) s := by
  cases s with
  | nil => exact ⟨_, rfl⟩
  | cons d s =>
    rw [List.head?_cons, ne_eq, Option.some.injEq] at h
    exact ⟨_, if_neg h⟩

theorem dropStart?_append (cs r : List Char) : dropStart? cs (cs ++ r) = some r := by
  induction cs with
  | nil => rfl
  | cons c cs ih => rw [List.cons_append, dropStart?, if_pos rfl, ih]

theorem reads_signs (cs r : List Char) : Reads (signs cs) (cs ++ r) () r := by
  rw [Reads, signs, dropStart?_append]

/-! ### Lists -/

variable {item : Reader α} {separator : Reader Unit}

/-- Items are read, each after a separator, until there is no separator. -/
inductive More (item : Reader α) (separator : Reader Unit) :
    List Char → List α → List Char → Prop
  | done {s : List Char} : Misses separator s → More item separator s [] s
  | more {s t t' r : List Char} {a : α} {as : List α} : Reads separator s () t →
      Reads item t a t' → More item separator t' as r → More item separator s (a :: as) r

theorem More.reads {s r : List Char} {as : List α} (h : More item separator s as r)
    {n : Nat} (hn : as.length ≤ n) (soFar : List α) :
    Reads (separatedFrom item separator n soFar) s (soFar.reverse ++ as) r := by
  induction h generalizing n soFar with
  | done hmiss =>
    rw [List.append_nil]
    cases n with
    | zero => rfl
    | succ n =>
      obtain ⟨e, he⟩ := hmiss
      rw [Reads, separatedFrom, he]
  | @more s t t' r a as hsep hitem _ ih =>
    obtain ⟨n, rfl⟩ : ∃ k, n = k + 1 :=
      Nat.exists_eq_add_one_of_ne_zero (Nat.ne_zero_of_lt hn)
    have hmore := ih (Nat.le_of_succ_le_succ hn) (a :: soFar)
    rw [List.reverse_cons, List.append_assoc, List.singleton_append] at hmore
    rw [Reads, separatedFrom, hsep]
    dsimp only
    rw [hitem]
    exact hmore

/-- A list is read from its first item on. -/
theorem More.separated {s t r : List Char} {a : α} {as : List α} (hitem : Reads item s a t)
    (h : More item separator t as r) (hlength : as.length ≤ t.length) :
    Reads (separated item separator) s (a :: as) r := by
  rw [Reads, Reader.separated, hitem]
  exact h.reads hlength [a]

theorem Reads.separatedOrNone {s r : List Char} {as : List α}
    (h : Reads (separated item separator) s as r) :
    Reads (separatedOrNone item separator) s as r := by
  rw [Reads, Reader.separatedOrNone, h]

end Reader

end WorkspaceAudit.Toml
