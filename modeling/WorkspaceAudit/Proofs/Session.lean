/-
WorkspaceAudit/Proofs/Session.lean

What a run answers and what it adds to the log.

`Logs m log t a ls` says that on the files `t`, with a log that goes to
`log`, the run `m` answers `a`, adds the lines `ls` to the log and changes no
file but that of the log, whatever the log held before and whatever the
console does.  The file of the log may be one of the files, so while a run
goes on the files are only known to be the same but for it; that is enough
for every question that does not look into it (`Logs.ask`).

A run is put together from smaller ones, and so is what it logs: `Logs.bind`
for one run after another, `Logs.mapM` and `Logs.forM` for a run for each
element of a list.

`Records` says less and asks for less: a run that does nothing but add lines to
the log, on any files and wherever the log goes, has the same rules.  It changes
no file but that of the log (`Records.sameBut`), and none where there is no such
file (`Records.onlyReads`).
-/
import WorkspaceAudit.Proofs.Tree.Contents
import WorkspaceAudit.Session

namespace WorkspaceAudit

namespace Run

variable {α β : Type}

/-! ### Single steps -/

theorem run_bind (m : Run α) (k : α → Run β) (s : Session) :
    (m >>= k).run s = (k (m.run s).1).run (m.run s).2 := rfl

theorem run_pure (a : α) (s : Session) : (pure a : Run α).run s = (a, s) := rfl

theorem run_ask (question : FileTree → α) (s : Session) :
    (ask question).run s = (question s.tree, s) := rfl

theorem run_say (level : Log.Level) (text : String) (s : Session) :
    (say level text).run s = ((), s.record ⟨level, text⟩) := rfl

end Run

/-! ### The log of a session -/

namespace Session

theorem lines_emit (bytes : Bytes) (s : Session) : (s.emit bytes).lines = s.lines := by
  unfold emit
  dsimp only
  split <;> rfl

theorem recorder_emit (bytes : Bytes) (s : Session) :
    (s.emit bytes).recorder = s.recorder := by
  unfold emit
  dsimp only
  split <;> rfl

/-- Writing to the log changes what is in its file, and nothing else. -/
theorem sameBut_emit (bytes : Bytes) (s : Session) :
    s.tree.SameBut (· ∈ s.recorder.file?) (s.emit bytes).tree := by
  unfold emit
  dsimp only
  split
  · next loc hloc =>
    -- whatever the console does, the tree is what the file leaves
    show s.tree.SameBut _ ((Log.fileSink loc).write bytes s.tree).2
    unfold Log.fileSink
    dsimp only
    split
    · next t ht =>
      apply (FileTree.sameBut_updateFile ht).mono
      rintro _ rfl
      exact hloc
    · exact .refl _ _
  · exact .refl _ _

theorem lines_record (l : Log.Line) (s : Session) :
    (s.record l).lines = s.lines ++ [l] := by
  unfold record
  dsimp only
  split
  · exact lines_emit _ _
  · rfl

theorem recorder_record (l : Log.Line) (s : Session) :
    (s.record l).recorder = s.recorder := by
  unfold record
  dsimp only
  split
  · exact recorder_emit _ _
  · rfl

theorem sameBut_record (l : Log.Line) (s : Session) :
    s.tree.SameBut (· ∈ s.recorder.file?) (s.record l).tree := by
  unfold record
  dsimp only
  split
  · exact sameBut_emit _ { s with lines := s.lines ++ [l] }
  · exact .refl _ _

end Session

/-! ### What a run logs -/

/-- On these files, with a log that goes to `log`, a run answers `a`, adds
`ls` to the log and changes no file but that of the log. -/
def Logs {α : Type} (m : Run α) (log : Option Location) (t : FileTree) (a : α)
    (ls : List Log.Line) : Prop :=
  ∀ s : Session, s.recorder.file? = log → t.SameBut (· ∈ log) s.tree →
    (m.run s).1 = a ∧ t.SameBut (· ∈ log) (m.run s).2.tree ∧
      (m.run s).2.recorder = s.recorder ∧ (m.run s).2.lines = s.lines ++ ls

namespace Logs

variable {α β : Type} {log : Option Location} {t : FileTree}

theorem pure (a : α) : Logs (pure a) log t a [] := by
  intro s _ hs
  exact ⟨rfl, hs, rfl, (List.append_nil _).symm⟩

/-- A question that the log makes no difference to. -/
theorem ask {question : FileTree → α} {a : α}
    (h : ∀ t', t.SameBut (· ∈ log) t' → question t' = a) :
    Logs (Run.ask question) log t a [] := by
  intro s _ hs
  exact ⟨h s.tree hs, hs, rfl, (List.append_nil _).symm⟩

theorem say (level : Log.Level) (text : String) :
    Logs (Run.say level text) log t () [⟨level, text⟩] := by
  intro s hlog hs
  subst hlog
  rw [Run.run_say]
  exact ⟨rfl, hs.trans (Session.sameBut_record _ _), Session.recorder_record _ _,
    Session.lines_record _ _⟩

/-- One run after another logs what both log. -/
theorem bind {m : Run α} {k : α → Run β} {a : α} {b : β} {ls ls' : List Log.Line}
    (hm : Logs m log t a ls) (hk : Logs (k a) log t b ls') :
    Logs (m >>= k) log t b (ls ++ ls') := by
  intro s hlog hs
  -- the second run starts where the first has left the files and the log
  obtain ⟨ha, htree, hrec, hlines⟩ := hm s hlog hs
  obtain ⟨hb, htree', hrec', hlines'⟩ := hk (m.run s).2 (by rw [hrec]; exact hlog) htree
  rw [Run.run_bind, ha]
  refine ⟨hb, htree', hrec'.trans hrec, ?_⟩
  rw [hlines', hlines, List.append_assoc]

theorem ask_bind {question : FileTree → α} {k : α → Run β} {a : α} {b : β}
    {ls : List Log.Line} (h : ∀ t', t.SameBut (· ∈ log) t' → question t' = a)
    (hk : Logs (k a) log t b ls) : Logs (Run.ask question >>= k) log t b ls :=
  (ask h).bind hk

theorem say_bind {level : Log.Level} {text : String} {k : Unit → Run β} {b : β}
    {ls : List Log.Line} (hk : Logs (k ()) log t b ls) :
    Logs (Run.say level text >>= k) log t b (⟨level, text⟩ :: ls) :=
  (say level text).bind hk

theorem forM {ι : Type} {m : ι → Run PUnit} {ls : ι → List Log.Line} (is : List ι)
    (h : ∀ i ∈ is, Logs (m i) log t () (ls i)) : Logs (is.forM m) log t () (is.flatMap ls) := by
  induction is with
  | nil => exact pure ()
  | cons i is ih =>
    have hi := h i List.mem_cons_self
    have his := ih fun j hj => h j (List.mem_cons_of_mem _ hj)
    exact hi.bind his

theorem mapM {ι : Type} {m : ι → Run α} {a : ι → α} {ls : ι → List Log.Line} (is : List ι)
    (h : ∀ i ∈ is, Logs (m i) log t (a i) (ls i)) :
    Logs (is.mapM m) log t (is.map a) (is.flatMap ls) := by
  induction is with
  | nil => exact pure []
  | cons i is ih =>
    have hi := h i List.mem_cons_self
    have his := ih fun j hj => h j (List.mem_cons_of_mem _ hj)
    rw [List.mapM_cons, List.flatMap_cons]
    apply hi.bind
    rw [← List.append_nil (is.flatMap ls)]
    exact his.bind (pure _)

end Logs

/-! ### Runs that only add to the log -/

namespace Session

/-- Adds lines to the log, one after the other. -/
def recordAll (ls : List Log.Line) (s : Session) : Session :=
  ls.foldl (fun s l => s.record l) s

theorem recordAll_append (ls ls' : List Log.Line) (s : Session) :
    s.recordAll (ls ++ ls') = (s.recordAll ls).recordAll ls' :=
  List.foldl_append

theorem tree_record {s : Session} (h : s.recorder.file? = none) (l : Log.Line) :
    (s.record l).tree = s.tree := by
  have hemit : ∀ lines bytes, (Session.emit bytes { s with lines := lines }).tree = s.tree := by
    intro lines bytes
    simp only [emit, h]
  unfold record
  dsimp only
  split
  · exact hemit _ _
  · rfl

/-- Lines of the log change what is in its file, and not where it goes. -/
theorem sameBut_recordAll (ls : List Log.Line) (s : Session) :
    s.tree.SameBut (· ∈ s.recorder.file?) (s.recordAll ls).tree ∧
      (s.recordAll ls).recorder = s.recorder := by
  induction ls generalizing s with
  | nil => exact ⟨.refl _ _, rfl⟩
  | cons l ls ih =>
    obtain ⟨htree, hrec⟩ := ih (s.record l)
    rw [recorder_record] at htree hrec
    exact ⟨(sameBut_record l s).trans htree, hrec⟩

/-- Without a log file the lines change no file. -/
theorem tree_recordAll {s : Session} (h : s.recorder.file? = none) (ls : List Log.Line) :
    (s.recordAll ls).tree = s.tree := by
  induction ls generalizing s with
  | nil => rfl
  | cons l ls ih =>
    have hrest : ((s.record l).recordAll ls).tree = (s.record l).tree :=
      ih (by rw [recorder_record]; exact h)
    exact hrest.trans (tree_record h l)

end Session

/-- The run adds lines to the log and does nothing else. -/
def Records {α : Type} (m : Run α) : Prop :=
  ∀ s : Session, ∃ ls, (m.run s).2 = s.recordAll ls

/-- Without a log file the run changes no file; it never changes where the log
goes. -/
def OnlyReads {α : Type} (m : Run α) : Prop :=
  ∀ s : Session, s.recorder.file? = none →
    (m.run s).2.tree = s.tree ∧ (m.run s).2.recorder = s.recorder

namespace Records

variable {α β ι : Type}

theorem pure (a : α) : Records (pure a) :=
  fun _ => ⟨[], rfl⟩

theorem ask (question : FileTree → α) : Records (Run.ask question) :=
  fun _ => ⟨[], rfl⟩

theorem say (level : Log.Level) (text : String) : Records (Run.say level text) :=
  fun _ => ⟨[⟨level, text⟩], rfl⟩

theorem bind {m : Run α} {k : α → Run β} (hm : Records m) (hk : ∀ a, Records (k a)) :
    Records (m >>= k) := by
  intro s
  obtain ⟨ls, hls⟩ := hm s
  obtain ⟨ls', hls'⟩ := hk (m.run s).1 (m.run s).2
  refine ⟨ls ++ ls', ?_⟩
  rw [Session.recordAll_append, ← hls, ← hls']
  rfl

theorem forM {m : ι → Run PUnit} (h : ∀ i, Records (m i)) (is : List ι) :
    Records (is.forM m) := by
  induction is with
  | nil => exact pure ()
  | cons i is ih => exact (h i).bind fun _ => ih

theorem mapM {m : ι → Run α} (h : ∀ i, Records (m i)) (is : List ι) : Records (is.mapM m) := by
  induction is with
  | nil => exact pure []
  | cons i is ih =>
    rw [List.mapM_cons]
    exact (h i).bind fun _ => ih.bind fun _ => pure _

theorem sameBut {m : Run α} (h : Records m) (s : Session) :
    s.tree.SameBut (· ∈ s.recorder.file?) (m.run s).2.tree ∧
      (m.run s).2.recorder = s.recorder := by
  obtain ⟨ls, hls⟩ := h s
  rw [hls]
  exact Session.sameBut_recordAll ls s

theorem onlyReads {m : Run α} (h : Records m) : OnlyReads m := by
  intro s hlog
  obtain ⟨ls, hls⟩ := h s
  rw [hls]
  exact ⟨Session.tree_recordAll hlog ls, (Session.sameBut_recordAll ls s).2⟩

end Records

end WorkspaceAudit
