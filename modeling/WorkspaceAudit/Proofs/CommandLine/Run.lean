/-
WorkspaceAudit/Proofs/CommandLine/Run.lean

The command line is a run with the configuration that it writes.

What a run with arguments leaves is told by the library: by the configuration
that is loaded, with the settings of the arguments in it, and by the run on that
(`runWith_of_error`, `runWith_of_ok`).  The log goes to one of the files, which is
opened before all else; as long as the run does not read it, it makes no
difference to the other files, to the exit code or to the output.

The headline says so of arguments as they are written.  It compares with a run on
the files after the log file was opened, and also with one on the files before:
these are the same unless a path is resolved through the new file.
-/
import WorkspaceAudit.CommandLine.Run
import WorkspaceAudit.Proofs.CommandLine.Reading
import WorkspaceAudit.Proofs.Diagnosis.Logged

namespace WorkspaceAudit

open FileTree

/-! ### Loading the configuration -/

namespace Config

/-- The configuration that is loaded from these files. -/
def loaded (t : FileTree) (p? : Option Path) : Except AuditError Config :=
  ((load p?).run (.on t)).1

/-- The configuration that a path gives on these files. -/
def atPath (t : FileTree) : Option Path → Except AuditError Config
  | none => .ok initial
  | some p =>
    if t.hasPath p then
      match t.readText p with
      | .error e => .error (.configUnreadable p e)
      | .ok text => ofText text p
    else .ok initial

theorem load_leaves {t : FileTree} {log : Option Location} {p? : Option Path}
    (h : ∀ p ∈ p?, t.Apart log p) : Leaves (load p?) log t (atPath t p?) t := by
  rcases p? with - | p
  · exact .pure _
  have hread : Logs (Run.ask (·.readText p)) log t (t.readText p) [] :=
    .ask fun t' ht => ht.readText_of_apart (h p rfl)
  refine (Leaves.of_logs (.ask fun t' ht => (ht.similar.hasPath_eq p).symm)).bind ?_
  rw [atPath]
  cases t.hasPath p with
  | false => exact (Leaves.of_logs (.say _ _)).bind (.pure _)
  | true =>
    refine (Leaves.of_logs hread).bind ?_
    rw [if_pos rfl]
    rcases t.readText p with e | text
    · exact .pure _
    · dsimp only
      rcases ofText text p with e | c
      · exact .pure _
      · exact (Leaves.of_logs (.say _ _)).bind (.pure _)

theorem loaded_eq (t : FileTree) (p? : Option Path) : loaded t p? = atPath t p? := by
  have hleaves : Leaves (load p?) none t (atPath t p?) t :=
    load_leaves fun p _ loc hloc => by cases hloc
  exact (hleaves (.on t) rfl (.refl _ _)).1

/-- Without a path, and where there is nothing at it, there are the defaults. -/
theorem loaded_of_missing {t : FileTree} {p? : Option Path}
    (h : ∀ p ∈ p?, t.hasPath p = false) : loaded t p? = .ok initial := by
  rw [loaded_eq]
  rcases p? with - | p
  · rfl
  · rw [atPath, h p rfl]
    rfl

theorem loaded_of_written {S : Location → Prop} {t u : FileTree} (hw : Written S t u)
    {p? : Option Path} (h : ∀ p ∈ p?, u.Aside S p) : loaded u p? = loaded t p? := by
  rw [loaded_eq, loaded_eq]
  rcases p? with - | p
  · rfl
  · rw [atPath, atPath, hw.hasPath_eq (h p rfl), hw.readText_eq (h p rfl)]

end Config

namespace CommandLine

variable {w : Surroundings} {a : Arguments} {c : Config}

/-! ### The session of a run -/

/-- Opening the log file changes nothing, or makes the file where nothing was. -/
theorem session_written (w : Surroundings) (a : Arguments) :
    Written (· ∈ (session w a).recorder.file?) w.tree (session w a).tree := by
  rw [session]
  dsimp only
  split
  · next t loc ht =>
    apply (written_openFile ht).mono
    rintro _ rfl
    rfl
  · exact .refl _ _

/-- Where the log goes is told by the files and by the path of the log file. -/
theorem session_congr {w' : Surroundings} (hw : w'.tree = w.tree) (quiet : Bool)
    (level : Log.Threshold) :
    (session w' { a with quiet := quiet, logLevel := level }).tree = (session w a).tree ∧
      (session w' { a with quiet := quiet, logLevel := level }).recorder.file? =
        (session w a).recorder.file? := by
  rw [session, session, hw]
  dsimp only
  split <;> exact ⟨rfl, rfl⟩

/-! ### How a run ends -/

/-- What is shown of an answer: of findings that are wanted the summary and after it, on
a line of its own, the path of the report; of all else nothing. -/
def answerText (quiet colours : Bool) (c : Config) (elapsed : Duration) :
    Except RunError (Option Findings) → String
  | .ok (some f) =>
    if quiet then ""
    else
      Summary.text colours elapsed f ++ "\n" ++
        (if colours then "\x1b[32mReport:\x1b[0m" else "Report:") ++ " " ++
        c.reportFile.shown ++ "\n"
  | _ => ""

/-- The name of the line is green, if there are colours. -/
theorem outputText_eq (colours : Bool) (c : Config) (f : Findings) (elapsed : Duration) :
    outputText colours c f elapsed =
      Summary.text colours elapsed f ++ "\n" ++
        (if colours then "\x1b[32mReport:\x1b[0m" else "Report:") ++ " " ++
        c.reportFile.shown ++ "\n" := by
  have hmark : String.ofList (Paint.on colours .green "Report:".toList) =
      if colours then "\x1b[32mReport:\x1b[0m" else "Report:" := by
    cases colours <;> decide
  rw [outputText, hmark]

/-- The log file is none of the files that are read: neither the configuration
nor what is found in the scan. -/
structure LogApart (w : Surroundings) (a : Arguments) : Prop where
  config : ∀ p ∈ a.config, (session w a).tree.Apart (session w a).recorder.file? p
  scan : ∀ c, Config.loaded (session w a).tree a.config = .ok c →
    Diagnosis.ReadsApart (a.override c) (session w a).tree (session w a).recorder.file?

theorem runWith_of_error (hlog : LogApart w a) {e : AuditError}
    (hload : Config.loaded (session w a).tree a.config = .error e) :
    (runWith w a).exitCode = 2 ∧ (∀ elapsed, (runWith w a).output elapsed = "") ∧
      (session w a).tree.SameBut (· ∈ (session w a).recorder.file?) (runWith w a).tree := by
  obtain ⟨hanswer, htree, hrec⟩ := Config.load_leaves hlog.config (session w a) rfl (.refl _ _)
  rw [← Config.loaded_eq, hload] at hanswer
  rw [runWith]
  generalize (Config.load a.config).run (session w a) = r at hanswer htree hrec ⊢
  obtain ⟨_, s⟩ := r
  cases hanswer
  refine ⟨rfl, fun _ => rfl, htree.trans ?_⟩
  rw [← hrec]
  exact Session.sameBut_record _ s

theorem runWith_of_ok (hlog : LogApart w a)
    (hload : Config.loaded (session w a).tree a.config = .ok c)
    {answer : Except RunError (Option Findings)} {t' : FileTree}
    (hran : Diagnosis.Ran (a.override c) (session w a).tree answer t') :
    (runWith w a).exitCode = (if answer.isOk then 0 else 1) ∧
      (∀ elapsed, (runWith w a).output elapsed =
        answerText a.quiet w.colours (a.override c) elapsed answer) ∧
      t'.SameBut (· ∈ (session w a).recorder.file?) (runWith w a).tree := by
  obtain ⟨hanswer, htree, hrec⟩ := Config.load_leaves hlog.config (session w a) rfl (.refl _ _)
  have hleaves := Diagnosis.run_leaves hran (hlog.scan c hload)
  rw [← Config.loaded_eq, hload] at hanswer
  rw [runWith]
  generalize (Config.load a.config).run (session w a) = r at hanswer htree hrec ⊢
  obtain ⟨_, s⟩ := r
  cases hanswer
  -- the run starts where loading has left the files and the log
  obtain ⟨hanswer', htree', -⟩ := hleaves s (by rw [hrec]) htree
  dsimp only
  generalize (Diagnosis.run (a.override c)).run s = r at hanswer' htree' ⊢
  obtain ⟨answer', s'⟩ := r
  obtain rfl : answer' = answer := hanswer'
  rcases answer' with e | - | f
  · exact ⟨rfl, fun _ => rfl, htree'⟩
  · exact ⟨rfl, fun _ => rfl, htree'⟩
  · refine ⟨rfl, fun elapsed => ?_, htree'⟩
    dsimp only [answerText]
    rw [outputText_eq]

/-! ### Arguments as they are written -/

/-- The configuration with the values of settings in place of its own. -/
def effective (ss : List Setting) (c : Config) : Config :=
  { c with
    root := (value? ss .root).getD c.root
    sourceDir := (value? ss .sourceDir).getD c.sourceDir
    reportFile := (value? ss .report).getD c.reportFile
    jsonReport := (value? ss .json).or c.jsonReport }

/-- What an ending has of a run of the library: its files but for the log, an exit
code that tells a failure, and on the output what was found, if that is wanted. -/
structure Ending.Follows (ending : Ending) (log : Option Location) (quiet colours : Bool)
    (c : Config) (answer : Except RunError (Option Findings)) (t : FileTree) : Prop where
  files : Written (· ∈ log) t ending.tree
  exitCode : ending.exitCode = if answer.isOk then 0 else 1
  output : ∀ elapsed, ending.output elapsed = answerText quiet colours c elapsed answer

/-- No path that a run looks at is resolved through the log file. -/
structure LogAside (w : Surroundings) (a : Arguments) (c : Config) : Prop where
  config : ∀ p ∈ a.config, (session w a).tree.Aside (· ∈ (session w a).recorder.file?) p
  root : (session w a).tree.Aside (· ∈ (session w a).recorder.file?) c.root
  scan : ∀ g h, Scan.patterns c = .ok (g, h) →
    ∀ p ∈ (session w a).tree.files c.sourceRoot g ++ (session w a).tree.files c.root h,
      (session w a).tree.Aside (· ∈ (session w a).recorder.file?) p

section Alike

variable {w' : Surroundings} (hw : w'.tree = w.tree) (quiet : Bool) (level : Log.Threshold)
include hw

theorem LogApart.congr (hlog : LogApart w a) :
    LogApart w' { a with quiet := quiet, logLevel := level } := by
  obtain ⟨htree, hfile⟩ := session_congr (a := a) hw quiet level
  constructor
  · rw [htree, hfile]
    exact hlog.config
  · rw [htree, hfile]
    exact hlog.scan

/-- Runs with the same arguments but for the threshold and the output are alike,
whatever the console does. -/
theorem runWith_alike (hlog : LogApart w a) :
    (runWith w' { a with quiet := quiet, logLevel := level }).exitCode = (runWith w a).exitCode ∧
      (runWith w a).tree.SameBut (· ∈ (session w a).recorder.file?)
        (runWith w' { a with quiet := quiet, logLevel := level }).tree := by
  have hlog' := hlog.congr hw quiet level
  obtain ⟨htree, hfile⟩ := session_congr (a := a) hw quiet level
  rcases hload : Config.loaded (session w a).tree a.config with e | c
  · obtain ⟨hcode, -, hsame⟩ := runWith_of_error hlog hload
    obtain ⟨hcode', -, hsame'⟩ := runWith_of_error hlog' (by rw [htree]; exact hload)
    rw [htree, hfile] at hsame'
    exact ⟨hcode'.trans hcode.symm, hsame.symm.trans hsame'⟩
  · -- both do what the library does on the files with the log file opened
    obtain ⟨hran, -⟩ := Diagnosis.run_ran (s := .on (session w a).tree) rfl (a.override c)
    obtain ⟨hcode, -, hsame⟩ := runWith_of_ok hlog hload hran
    obtain ⟨hcode', -, hsame'⟩ := runWith_of_ok hlog' (by rw [htree]; exact hload)
      (by rw [htree]; exact hran)
    rw [hfile] at hsame'
    exact ⟨hcode'.trans hcode.symm, hsame.symm.trans hsame'⟩

end Alike

theorem override_ofSettings (ss : List Setting) (c : Config) :
    (Arguments.ofSettings ss).override c = effective ss c := rfl

theorem run_of_request {arguments : List Bytes} (h : request arguments = .ok (.run a))
    (w : Surroundings) : run w arguments = runWith w a := by
  rw [run, h]

/-- A run follows the library on the files after the log file was opened. -/
theorem runWith_follows (hlog : LogApart w a)
    (hload : Config.loaded (session w a).tree a.config = .ok c) :
    (runWith w a).Follows (session w a).recorder.file? a.quiet w.colours (a.override c)
      ((Diagnosis.run (a.override c)).run (.on (session w a).tree)).1
      ((Diagnosis.run (a.override c)).run (.on (session w a).tree)).2.tree := by
  obtain ⟨hran, -⟩ := Diagnosis.run_ran (s := .on (session w a).tree) rfl (a.override c)
  obtain ⟨hcode, houtput, hsame⟩ := runWith_of_ok hlog hload hran
  exact ⟨hsame.written, hcode, houtput⟩

/-- It follows the library on the files before, too, if it looks at nothing by way of
the log file. -/
theorem runWith_follows_before (hlog : LogApart w a)
    (hload : Config.loaded (session w a).tree a.config = .ok c)
    (haside : LogAside w a (a.override c)) :
    (runWith w a).Follows (session w a).recorder.file? a.quiet w.colours (a.override c)
      ((Diagnosis.run (a.override c)).run (.on w.tree)).1
      ((Diagnosis.run (a.override c)).run (.on w.tree)).2.tree := by
  obtain ⟨hran, -⟩ := Diagnosis.run_ran (s := .on w.tree) rfl (a.override c)
  obtain ⟨answer, t', hran', hanswer, hwritten⟩ :=
    hran.of_written (session_written w a) haside.root haside.scan
  obtain ⟨hcode, houtput, hsame⟩ := runWith_of_ok hlog hload hran'
  generalize ((Diagnosis.run (a.override c)).run (.on w.tree)).1 = answer' at hanswer ⊢
  -- both fail, or both answer the same
  refine ⟨hwritten.trans hsame.written, ?_, ?_⟩
  · rw [hcode]
    rcases answer with e | f <;> rcases answer' with e' | f'
    · rfl
    · cases hanswer
    · cases hanswer
    · rfl
  · intro elapsed
    rw [houtput]
    rcases answer with e | f <;> rcases answer' with e' | f'
    · rfl
    · cases hanswer
    · cases hanswer
    · cases hanswer
      rfl

/-- **The command line is a run with the configuration that it writes.**  Arguments
that ask for a run spell settings.  The configuration is loaded from where they say,
and it is the default if they say nothing or nothing is there.  If that fails, the
exit code is 2 and no file but that of the log is changed.  Otherwise the run leaves
what the library leaves with the effective configuration, on the files after the log
file was opened, and also on those before if no path that it looks at is resolved
through the log file.  What is logged, what is shown and what becomes of the console
makes no difference to this. -/
theorem run_follows {arguments : List Bytes} (hargs : request arguments = .ok (.run a))
    (hlog : LogApart w a) :
    ∃ ss, Spells arguments ss ∧ (ss.map Prod.fst).Nodup ∧ a = .ofSettings ss ∧
      ((∀ p ∈ value? ss .config, (session w a).tree.hasPath p = false) →
        Config.loaded (session w a).tree (value? ss .config) = .ok .initial) ∧
      (∀ e, Config.loaded (session w a).tree (value? ss .config) = .error e →
        (run w arguments).exitCode = 2 ∧ (∀ elapsed, (run w arguments).output elapsed = "") ∧
          Written (· ∈ (session w a).recorder.file?) w.tree (run w arguments).tree) ∧
      (∀ c, Config.loaded (session w a).tree (value? ss .config) = .ok c →
        (run w arguments).Follows (session w a).recorder.file? a.quiet w.colours (effective ss c)
            ((Diagnosis.run (effective ss c)).run (.on (session w a).tree)).1
            ((Diagnosis.run (effective ss c)).run (.on (session w a).tree)).2.tree ∧
          (LogAside w a (effective ss c) →
            Config.loaded w.tree (value? ss .config) = .ok c ∧
              (run w arguments).Follows (session w a).recorder.file? a.quiet w.colours
                (effective ss c) ((Diagnosis.run (effective ss c)).run (.on w.tree)).1
                ((Diagnosis.run (effective ss c)).run (.on w.tree)).2.tree)) ∧
      ∀ w' arguments' quiet level, w'.tree = w.tree →
        request arguments' = .ok (.run { a with quiet := quiet, logLevel := level }) →
          (run w' arguments').exitCode = (run w arguments).exitCode ∧
            (run w arguments).tree.SameBut (· ∈ (session w a).recorder.file?)
              (run w' arguments').tree := by
  obtain ⟨ss, hspells, hnodup, -, hss⟩ := request_run_iff.mp hargs
  have hconfig : a.config = value? ss .config := by rw [hss]; rfl
  have heffective : ∀ c, a.override c = effective ss c := by
    intro c
    rw [hss, override_ofSettings]
  rw [run_of_request hargs]
  refine ⟨ss, hspells, hnodup, hss, Config.loaded_of_missing, ?_, ?_, ?_⟩
  · intro e hload
    obtain ⟨hcode, houtput, hsame⟩ := runWith_of_error hlog (by rw [hconfig]; exact hload)
    exact ⟨hcode, houtput, (session_written w a).trans hsame.written⟩
  · intro c hload
    rw [← hconfig] at hload
    rw [← heffective]
    refine ⟨runWith_follows hlog hload, fun haside => ?_⟩
    have hbefore := Config.loaded_of_written (session_written w a) haside.config
    rw [hload, hconfig] at hbefore
    exact ⟨hbefore.symm, runWith_follows_before hlog hload haside⟩
  · intro w' arguments' quiet level hw hargs'
    rw [run_of_request hargs']
    exact runWith_alike hw quiet level hlog

/-- The small workspace with a configuration, which names the sources and the report. -/
def commandTree : FileTree :=
  (Scan.smallTree (Bytes.ofText "\x7b") Scan.oldManifest).put
    [⟨Bytes.ofText "audit.json", by decide⟩]
    (.file (Bytes.ofText "\x7b\"source_dir\": \"src\", \"report_file\": \"out.txt\"\x7d"))

/-- A root and a file for the findings are given on the command line. -/
def command : List Bytes :=
  ["--config", "audit.json", "--root=.", "--json", "found.json"].map Bytes.ofText

/-- What this command asks for. -/
def commandArguments : Arguments :=
  { Arguments.none with
    config := some (Bytes.ofText "audit.json"), root := some Path.dot
    json := some (Bytes.ofText "found.json") }

/-- What its configuration file says. -/
def commandFile : Config :=
  { Config.initial with
    sourceDir := Bytes.ofText "src", reportFile := Bytes.ofText "out.txt" }

/-- The configuration that it comes to. -/
def commandConfig : Config :=
  { commandFile with root := Path.dot, jsonReport := some (Bytes.ofText "found.json") }

/-- The small workspace, seen from a closed console. -/
def darkSurroundings : Surroundings :=
  ⟨commandTree, "now", false, false⟩

theorem command_request : request command = .ok (.run commandArguments) := by
  rfl

theorem command_quiet_request :
    request (command ++ ["--quiet", "--log-level=off"].map Bytes.ofText) =
      .ok (.run { commandArguments with quiet := true, logLevel := .off }) := by
  rfl

theorem command_loaded :
    Config.loaded (session darkSurroundings commandArguments).tree commandArguments.config =
      .ok commandFile := by
  decide +kernel

theorem command_logApart : LogApart darkSurroundings commandArguments := by
  constructor
  · intro p hp
    cases hp
    rw [Apart]
    decide +kernel
  · intro c hc
    rw [command_loaded] at hc
    cases hc
    intro g h hp
    have hpatterns : Scan.patterns (commandArguments.override commandFile) =
        .ok (⟨"*.rs"⟩, ⟨"Cargo.toml"⟩) := by
      decide +kernel
    rw [hpatterns] at hp
    cases hp
    simp only [Apart]
    decide +kernel

theorem command_logAside : LogAside darkSurroundings commandArguments commandConfig := by
  constructor
  · intro p hp
    cases hp
    rw [Aside]
    decide +kernel
  · rw [Aside]
    decide +kernel
  · intro g h hp
    have hpatterns : Scan.patterns commandConfig = .ok (⟨"*.rs"⟩, ⟨"Cargo.toml"⟩) := by
      decide +kernel
    rw [hpatterns] at hp
    cases hp
    simp only [Aside]
    decide +kernel

/-- The small workspace is scanned with a root and an export from the command line and
all else from a file; quietly and without a log it is the same. -/
theorem small_run_follows :
    ∃ f : Findings, f.size = 3 ∧
      ((Diagnosis.run commandConfig).run (.on commandTree)).1 = .ok (some f) ∧
      (run darkSurroundings command).exitCode = 0 ∧
      (∀ elapsed, (run darkSurroundings command).output elapsed =
        Summary.text false elapsed f ++ "\n" ++ "Report:" ++ " " ++ "out.txt" ++ "\n") ∧
      Written (· ∈ (session darkSurroundings commandArguments).recorder.file?)
        ((Diagnosis.run commandConfig).run (.on commandTree)).2.tree
        (run darkSurroundings command).tree ∧
      (run { darkSurroundings with consoleIsOpen := true }
        (command ++ ["--quiet", "--log-level=off"].map Bytes.ofText)).exitCode = 0 := by
  obtain ⟨ss, -, -, hss, -, -, hok, halike⟩ :=
    run_follows (w := darkSurroundings) command_request command_logApart
  have hconfig : value? ss .config = commandArguments.config := by rw [hss]; rfl
  have heffective : effective ss commandFile = commandConfig := by
    rw [← override_ofSettings, ← hss]
    rfl
  obtain ⟨-, hbefore⟩ := hok commandFile (by rw [hconfig]; exact command_loaded)
  rw [heffective] at hbefore
  obtain ⟨-, hfiles, hcode, houtput⟩ := hbefore command_logAside
  have hfound : ((Diagnosis.run commandConfig).run (.on commandTree)).1 =
      .ok (some (Scan.findings commandConfig ⟨"*.rs"⟩ ⟨"Cargo.toml"⟩ commandTree)) := by
    decide +kernel
  have htree : darkSurroundings.tree = commandTree := rfl
  rw [htree] at hfiles hcode houtput
  rw [hfound] at hcode houtput
  have hsize : (Scan.findings commandConfig ⟨"*.rs"⟩ ⟨"Cargo.toml"⟩ commandTree).size = 3 := by
    decide +kernel
  generalize Scan.findings commandConfig ⟨"*.rs"⟩ ⟨"Cargo.toml"⟩ commandTree = f at *
  obtain ⟨hsame, -⟩ := halike { darkSurroundings with consoleIsOpen := true }
    (command ++ ["--quiet", "--log-level=off"].map Bytes.ofText) true .off htree
    command_quiet_request
  exact ⟨f, hsize, hfound, hcode, houtput, hfiles, hsame.trans hcode⟩

end CommandLine

end WorkspaceAudit
