/-
WorkspaceAudit/Tree/FileError.lean

Why a file cannot be reached, read or written.
-/

namespace WorkspaceAudit

/-- A failure of the file system, or of the text of a file. -/
inductive FileError
  | missing
  | busy
  | present
  | notDirectory
  | isDirectory
  | invalid
  | noSpace
  | closed
  | nameTooLong
  | notEmpty
  | tooManyLinks
  /-- The bytes of a file encode no text. -/
  | notText
  /-- A path holds the byte zero. -/
  | zeroByte
  deriving DecidableEq, Repr

namespace FileError

/-- The words for a failure and the number that the system gives it. -/
def coded (words : String) (code : Nat) : String :=
  words ++ " (os error " ++ toString code ++ ")"

/-- What is said about a failure. -/
def message : FileError → String
  | missing => coded "No such file or directory" 2
  | busy => coded "Device or resource busy" 16
  | present => coded "File exists" 17
  | notDirectory => coded "Not a directory" 20
  | isDirectory => coded "Is a directory" 21
  | invalid => coded "Invalid argument" 22
  | noSpace => coded "No space left on device" 28
  | closed => coded "Broken pipe" 32
  | nameTooLong => coded "File name too long" 36
  | notEmpty => coded "Directory not empty" 39
  | tooManyLinks => coded "Too many levels of symbolic links" 40
  | notText => "stream did not contain valid UTF-8"
  | zeroByte => "file name contained an unexpected NUL byte"

end FileError

end WorkspaceAudit
