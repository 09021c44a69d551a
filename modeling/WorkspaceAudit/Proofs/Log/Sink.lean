/-
WorkspaceAudit/Proofs/Log/Sink.lean

What two sinks get that are written to together.

A log is written by calls, each of which writes a buffer or flushes.  Of two sinks
that are joined by `Sink.both` each gets every call, just as if it were alone, and
the answers are put together one by one: that of the first sink if it is a failure,
else that of the second (`serveAll_both`).  So what one sink does, or how often and
where in a buffer it fails, is not seen by the other.

The headline is about a file and a console.  All that is asked of the file is that
it appends (`Sink.Appends`); of the console nothing is asked at all.
-/
import WorkspaceAudit.Log.Sink
import WorkspaceAudit.Proofs.Tree.Writes

namespace WorkspaceAudit.Log

variable {ε σ τ : Type}

/-! ### Calls -/

/-- What is asked of a sink. -/
inductive Call
  | write (bytes : Bytes)
  | flush

/-- All buffers that are written, one after the other. -/
def Call.written (calls : List Call) : Bytes :=
  calls.flatMap fun
    | .write bytes => bytes
    | .flush => []

namespace Sink

/-- One call: a write that does not fail tells how many bytes it has taken. -/
def serve (a : Sink ε σ) : Call → σ → Except ε (Option Nat) × σ
  | .write bytes, s => ((a.taken bytes s).1.map some, (a.taken bytes s).2)
  | .flush, s => ((a.flush s).1.map fun _ => none, (a.flush s).2)

/-- Calls one after the other, with what each answers. -/
def serveAll (a : Sink ε σ) : List Call → σ → List (Except ε (Option Nat)) × σ
  | [], s => ([], s)
  | call :: calls, s =>
    let (answer, s) := a.serve call s
    let (answers, s) := a.serveAll calls s
    (answer :: answers, s)

/-- The first of two answers if it is a failure, else the second. -/
def tell {α : Type} : Except ε α → Except ε α → Except ε α
  | .error e, _ => .error e
  | .ok _, answer => answer

/-! ### Both sinks -/

/-- Each sink is asked, whatever the other answers. -/
theorem serve_both (a : Sink ε σ) (b : Sink ε τ) (call : Call) (s : σ) (t : τ) :
    (a.both b).serve call (s, t) =
      (tell (a.serve call s).1 (b.serve call t).1, ((a.serve call s).2, (b.serve call t).2)) := by
  cases call with
  | write bytes =>
    apply Prod.ext
    · show ((first (a.write bytes s).1 (b.write bytes t).1).map _).map some =
        tell (((a.write bytes s).1.map _).map some) (((b.write bytes t).1.map _).map some)
      rcases (a.write bytes s).1 with e | ⟨⟩
      · rfl
      · rfl
    · rfl
  | flush =>
    apply Prod.ext
    · show (first (a.flush s).1 (b.flush t).1).map _ =
        tell ((a.flush s).1.map _) ((b.flush t).1.map _)
      rcases (a.flush s).1 with e | ⟨⟩
      · rfl
      · rfl
    · rfl

/-- **Each of two sinks serves all calls as it would alone.** -/
theorem serveAll_both (a : Sink ε σ) (b : Sink ε τ) (calls : List Call) (s : σ) (t : τ) :
    (a.both b).serveAll calls (s, t) =
      (List.zipWith tell (a.serveAll calls s).1 (b.serveAll calls t).1,
        ((a.serveAll calls s).2, (b.serveAll calls t).2)) := by
  induction calls generalizing s t with
  | nil => rfl
  | cons call calls ih =>
    rw [serveAll, serve_both]
    dsimp only
    rw [ih]
    rfl

/-! ### Answers -/

theorem length_serveAll (a : Sink ε σ) (calls : List Call) (s : σ) :
    (a.serveAll calls s).1.length = calls.length := by
  induction calls generalizing s with
  | nil => rfl
  | cons call calls ih => exact congrArg (· + 1) (ih _)

theorem lt_of_answer {a : Sink ε σ} {calls : List Call} {s : σ} {i : Nat}
    {r : Except ε (Option Nat)} (h : (a.serveAll calls s).1[i]? = some r) : i < calls.length := by
  obtain ⟨hi, -⟩ := List.getElem?_eq_some_iff.mp h
  rwa [length_serveAll] at hi

/-- Every call is answered. -/
theorem exists_answer (a : Sink ε σ) {calls : List Call} (s : σ) {i : Nat}
    (hi : i < calls.length) : ∃ r, (a.serveAll calls s).1[i]? = some r := by
  rw [← length_serveAll a calls s] at hi
  exact ⟨_, List.getElem?_eq_getElem hi⟩

/-- A write that does not fail has taken the whole buffer. -/
theorem answer_write (a : Sink ε σ) {calls : List Call} {s : σ} {i : Nat} {bytes : Bytes}
    {n : Option Nat} (hcall : calls[i]? = some (.write bytes))
    (h : (a.serveAll calls s).1[i]? = some (.ok n)) : n = some bytes.length := by
  induction calls generalizing s i with
  | nil => cases hcall
  | cons call calls ih =>
    cases i with
    | succ i => exact ih hcall h
    | zero =>
      obtain rfl : call = .write bytes := Option.some.inj hcall
      have hanswer : ((a.taken bytes s).1.map some) = .ok n := Option.some.inj h
      rw [taken] at hanswer
      dsimp only at hanswer
      rcases hwrite : (a.write bytes s).1 with e | ⟨⟩
      · rw [hwrite] at hanswer
        cases hanswer
      · rw [hwrite] at hanswer
        cases hanswer
        rfl

/-! ### Sinks that append -/

/-- What such a sink accepts stands at the end of what it held, and a flush adds
nothing.  Nothing is said of a write that fails. -/
structure Appends (a : Sink ε σ) (holds : σ → Bytes → Prop) : Prop where
  write : ∀ {s content bytes}, holds s content → (a.write bytes s).1 = .ok () →
    holds (a.write bytes s).2 (content ++ bytes)
  flush : ∀ {s content}, holds s content → holds (a.flush s).2 content

/-- The sink accepts all that is written, whatever a flush answers. -/
inductive Accepts (a : Sink ε σ) : List Call → σ → Prop
  | nil {s : σ} : Accepts a [] s
  | write {bytes : Bytes} {calls : List Call} {s : σ} : (a.write bytes s).1 = .ok () →
      Accepts a calls (a.write bytes s).2 → Accepts a (.write bytes :: calls) s
  | flush {calls : List Call} {s : σ} : Accepts a calls (a.flush s).2 →
      Accepts a (.flush :: calls) s

/-- What was accepted stands there: each buffer once, whole, in the order of the
calls. -/
theorem Appends.serveAll {a : Sink ε σ} {holds : σ → Bytes → Prop} (ha : a.Appends holds)
    {calls : List Call} {s : σ} (haccepts : a.Accepts calls s) {content : Bytes}
    (hs : holds s content) : holds (a.serveAll calls s).2 (content ++ Call.written calls) := by
  induction haccepts generalizing content with
  | nil =>
    rw [show Call.written [] = [] from rfl, List.append_nil]
    exact hs
  | @write bytes calls s hok _ ih =>
    have hrest := ih (ha.write hs hok)
    rw [List.append_assoc] at hrest
    exact hrest
  | flush _ ih => exact ih (ha.flush hs)

end Sink

/-! ### A file and a console -/

theorem fileSink_write {t : FileTree} {loc : Location} {content : Bytes}
    (ht : t.at? loc = some (.file content)) (bytes : Bytes) :
    (fileSink loc).write bytes t = (.ok (), t.put loc (.file (content ++ bytes))) := by
  have hupdate : t.updateFile loc (· ++ bytes) = .ok (t.put loc (.file (content ++ bytes))) := by
    rw [FileTree.updateFile, ht]
  rw [fileSink]
  dsimp only
  rw [hupdate]

/-- A file that stands at the location appends. -/
theorem fileSink_appends (loc : Location) :
    (fileSink loc).Appends fun t content => t.at? loc = some (.file content) where
  write := by
    intro t content bytes ht _
    rw [fileSink_write ht]
    exact (Entries.Slot.of_at? ht fun _ => by simp).at?_put _
  flush ht := ht

/-- It accepts whatever is written. -/
theorem fileSink_accepts {loc : Location} (calls : List Call) {t : FileTree} {content : Bytes}
    (ht : t.at? loc = some (.file content)) : (fileSink loc).Accepts calls t := by
  induction calls generalizing t content with
  | nil => exact .nil
  | cons call calls ih =>
    cases call with
    | write bytes =>
      have hok : ((fileSink loc).write bytes t).1 = .ok () := by rw [fileSink_write ht]
      exact .write hok (ih ((fileSink_appends loc).write ht hok))
    | flush => exact .flush (ih ht)

/-- **A log file gets every line once, whatever the console does.**  As long as the
file accepts what is written, it holds in the end what it held before and then all
buffers, each whole and in order.  Both get every call, whatever the other does.  A call
is answered by the failure of the file, also where both fail, and else as the console
answers; a write that does not fail tells the length of its buffer. -/
theorem both_serves {file : Sink ε σ} {holds : σ → Bytes → Prop} (hfile : file.Appends holds)
    (console : Sink ε τ) (calls : List Call) (s : σ) (t : τ) :
    (∀ content, holds s content → file.Accepts calls s →
      holds ((file.both console).serveAll calls (s, t)).2.1 (content ++ Call.written calls)) ∧
    ((file.both console).serveAll calls (s, t)).2 =
      ((file.serveAll calls s).2, (console.serveAll calls t).2) ∧
    (∀ (i : Nat) (e : ε), (file.serveAll calls s).1[i]? = some (.error e) →
      ((file.both console).serveAll calls (s, t)).1[i]? = some (.error e)) ∧
    (∀ (i : Nat) (n : Option Nat), (file.serveAll calls s).1[i]? = some (.ok n) →
      ((file.both console).serveAll calls (s, t)).1[i]? = (console.serveAll calls t).1[i]?) ∧
    (∀ (i : Nat) (bytes : Bytes) (n : Option Nat), calls[i]? = some (.write bytes) →
      ((file.both console).serveAll calls (s, t)).1[i]? = some (.ok n) →
      n = some bytes.length) := by
  refine ⟨?_, ?_, ?_, ?_, fun i bytes n hcall => Sink.answer_write _ hcall⟩
  · intro content hs haccepts
    rw [Sink.serveAll_both]
    exact hfile.serveAll haccepts hs
  · rw [Sink.serveAll_both]
  · intro i e he
    obtain ⟨r, hr⟩ := Sink.exists_answer console t (Sink.lt_of_answer he)
    rw [Sink.serveAll_both, List.getElem?_zipWith, he, hr]
    rfl
  · intro i n hn
    obtain ⟨r, hr⟩ := Sink.exists_answer console t (Sink.lt_of_answer hn)
    rw [Sink.serveAll_both, List.getElem?_zipWith, hn, hr]
    rfl

/-- A console that goes by a plan: it accepts a call, or takes some bytes and fails. -/
def plannedSink : Sink FileError (Bytes × List (Option Nat)) where
  write bytes := fun (shown, plan) =>
    match plan with
    | some n :: plan => (.error .closed, (shown ++ bytes.take n, plan))
    | none :: plan => (.ok (), (shown ++ bytes, plan))
    | [] => (.ok (), (shown ++ bytes, []))
  flush := fun (shown, plan) =>
    match plan with
    | some _ :: plan => (.error .closed, (shown, plan))
    | none :: plan => (.ok (), (shown, plan))
    | [] => (.ok (), (shown, []))

/-- Where a log goes. -/
def logFile : Location :=
  [⟨Bytes.ofText "lines.log", by decide⟩]

/-- A tree in which this stands there. -/
def logTree (x : Node) : FileTree :=
  ⟨[(⟨Bytes.ofText "lines.log", by decide⟩, x)], []⟩

/-- Three lines, and a flush before the last. -/
def threeLines : List Call :=
  [.write (Bytes.ofText "one\n"), .write (Bytes.ofText "two\n"), .flush,
    .write (Bytes.ofText "three\n")]

/-- The console takes one byte of the second line and fails, and fails again when it is
flushed; the file has all three lines, and only those two calls fail.  A full device in
the place of the file fails first, and the console gets what it got before. -/
theorem threeLines_both_serves :
    (((fileSink logFile).both plannedSink).serveAll threeLines
        (logTree (.file (Bytes.ofText "zero\n")), ([], [none, some 1, some 0]))).2.1.at? logFile =
      some (.file (Bytes.ofText "zero\none\ntwo\nthree\n")) ∧
    (((fileSink logFile).both plannedSink).serveAll threeLines
        (logTree (.file (Bytes.ofText "zero\n")), ([], [none, some 1, some 0]))).1[1]? =
      some (.error .closed) ∧
    (((fileSink logFile).both plannedSink).serveAll threeLines
        (logTree (.device .full), ([], [none, some 1, some 0]))).1[1]? =
      some (.error .noSpace) ∧
    (((fileSink logFile).both plannedSink).serveAll threeLines
        (logTree (.device .full), ([], [none, some 1, some 0]))).2.2.1 =
      Bytes.ofText "one\ntthree\n" := by
  have hfile : (logTree (.file (Bytes.ofText "zero\n"))).at? logFile =
      some (.file (Bytes.ofText "zero\n")) := rfl
  obtain ⟨hheld, -, -, hanswer, -⟩ := both_serves (fileSink_appends logFile) plannedSink threeLines
    (logTree (.file (Bytes.ofText "zero\n"))) ([], [none, some 1, some 0])
  obtain ⟨-, hstates, hfailure, -, -⟩ := both_serves (fileSink_appends logFile) plannedSink
    threeLines (logTree (.device .full)) ([], [none, some 1, some 0])
  refine ⟨?_, ?_, ?_, ?_⟩
  · exact hheld _ hfile (fileSink_accepts threeLines hfile)
  · rw [hanswer 1 (some 4) rfl]
    rfl
  · exact hfailure 1 .noSpace rfl
  · rw [hstates]
    rfl

end WorkspaceAudit.Log
