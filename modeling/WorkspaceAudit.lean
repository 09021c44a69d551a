import WorkspaceAudit.Text.Utf8
import WorkspaceAudit.Text.Lines
import WorkspaceAudit.Text.Quoted
import WorkspaceAudit.Text.Similarity
import WorkspaceAudit.Decimal.Fixed
import WorkspaceAudit.Toml.Document
import WorkspaceAudit.Toml.Printer
import WorkspaceAudit.Json.Reader
import WorkspaceAudit.Json.Value
import WorkspaceAudit.Source
import WorkspaceAudit.Expectation
import WorkspaceAudit.Manifest
import WorkspaceAudit.Glob
import WorkspaceAudit.Tree.Edit
import WorkspaceAudit.Tree.Walk
import WorkspaceAudit.Config.Reader
import WorkspaceAudit.Findings
import WorkspaceAudit.Report
import WorkspaceAudit.Summary
import WorkspaceAudit.Session
import WorkspaceAudit.Scan
import WorkspaceAudit.Diagnosis
import WorkspaceAudit.CommandLine.Help
import WorkspaceAudit.CommandLine.Run
import WorkspaceAudit.Main
import WorkspaceAudit.Proofs.Session
import WorkspaceAudit.Proofs.Text.Encoded
import WorkspaceAudit.Proofs.Glob
import WorkspaceAudit.Proofs.Tree.Order
import WorkspaceAudit.Proofs.Tree.Shape
import WorkspaceAudit.Proofs.Tree.Landing
import WorkspaceAudit.Proofs.Tree.Along
import WorkspaceAudit.Proofs.Tree.Files
import WorkspaceAudit.Proofs.Tree.Spelling
import WorkspaceAudit.Proofs.Scan.Passes
import WorkspaceAudit.Proofs.Clean
import WorkspaceAudit.Proofs.Scan.Isolation
import WorkspaceAudit.Proofs.Scan.Keys
import WorkspaceAudit.Proofs.Scan.Lines
import WorkspaceAudit.Proofs.Scan.Sources
import WorkspaceAudit.Proofs.Tree.Writes
import WorkspaceAudit.Proofs.Tree.Stations
import WorkspaceAudit.Proofs.Tree.Additions
import WorkspaceAudit.Proofs.Diagnosis.Outputs
import WorkspaceAudit.Proofs.Diagnosis.Repeat
import WorkspaceAudit.Proofs.Diagnosis.Rootless
import WorkspaceAudit.Proofs.Tree.Alongside
import WorkspaceAudit.Proofs.Diagnosis.Logged
import WorkspaceAudit.Proofs.CommandLine.Settings
import WorkspaceAudit.Proofs.CommandLine.Reading
import WorkspaceAudit.Proofs.CommandLine.Run
import WorkspaceAudit.Proofs.Json.Grammar
import WorkspaceAudit.Proofs.Json.Strings
import WorkspaceAudit.Proofs.Json.Readers
import WorkspaceAudit.Proofs.Json.Records
import WorkspaceAudit.Proofs.Json.Writing
import WorkspaceAudit.Proofs.Config.Expectations
import WorkspaceAudit.Proofs.Config.Language
import WorkspaceAudit.Proofs.Config.RoundTrip
import WorkspaceAudit.Proofs.Findings
import WorkspaceAudit.Proofs.Json.Unambiguous
import WorkspaceAudit.Proofs.Report.Decoding
import WorkspaceAudit.Proofs.Report.Lines
import WorkspaceAudit.Proofs.Report.Export
import WorkspaceAudit.Proofs.Expectation
import WorkspaceAudit.Proofs.Json.Refusals
import WorkspaceAudit.Proofs.Config.Tables
import WorkspaceAudit.Proofs.Manifest.Listing
import WorkspaceAudit.Proofs.Manifest.Deviations
import WorkspaceAudit.Proofs.Manifest.Edits
import WorkspaceAudit.Proofs.Log.Sink
import WorkspaceAudit.Proofs.Manifest.Tables
import WorkspaceAudit.Proofs.Scan.Warnings
import WorkspaceAudit.Proofs.Toml.Inline
import WorkspaceAudit.Proofs.Manifest.Spellings
import WorkspaceAudit.Proofs.Text.Lines
import WorkspaceAudit.Proofs.Toml.Remainders
import WorkspaceAudit.Proofs.Toml.Places
import WorkspaceAudit.Proofs.Scan.Malformed
import WorkspaceAudit.Proofs.Summary
