/-
WorkspaceAudit/Log/Sink.lean

Where a log is written.

A sink takes bytes or fails, and may have taken some of them when it fails.
`Sink.both` joins two: each is always tried, whatever the other does, and
the failure of the first is the one that is told.
-/
import WorkspaceAudit.Tree.Resolve

namespace WorkspaceAudit.Log

/-- Something that takes bytes; `σ` is what it holds. -/
structure Sink (ε σ : Type) where
  write : Bytes → σ → Except ε Unit × σ
  flush : σ → Except ε Unit × σ

namespace Sink

variable {ε σ τ : Type}

/-- The first failure of two. -/
def first : Except ε Unit → Except ε Unit → Except ε Unit
  | .error e, _ => .error e
  | .ok (), r => r

/-- Writes everything to both sinks. -/
def both (a : Sink ε σ) (b : Sink ε τ) : Sink ε (σ × τ) where
  write bytes := fun (s, t) =>
    let (r, s) := a.write bytes s
    let (r', t) := b.write bytes t
    (first r r', (s, t))
  flush := fun (s, t) =>
    let (r, s) := a.flush s
    let (r', t) := b.flush t
    (first r r', (s, t))

/-- The bytes that a write has taken, all of them if it did not fail. -/
def taken (a : Sink ε σ) (bytes : Bytes) (s : σ) : Except ε Nat × σ :=
  let (r, s) := a.write bytes s
  (r.map fun _ => bytes.length, s)

end Sink

/-- The file at a location of a tree: what is written goes to its end. -/
def fileSink (loc : Location) : Sink FileError FileTree where
  write bytes t :=
    match t.updateFile loc (· ++ bytes) with
    | .ok t => (.ok (), t)
    | .error e => (.error e, t)
  flush t := (.ok (), t)

/-- A console that is open, or closed and takes nothing. -/
def consoleSink (isOpen : Bool) : Sink FileError Bytes where
  write bytes shown := if isOpen then (.ok (), shown ++ bytes) else (.error .closed, shown)
  flush shown := (if isOpen then .ok () else .error .closed, shown)

end WorkspaceAudit.Log
