/-!
# Failures of input and output

What the system answers when a file cannot be read, a program not started, or
a stream not used.
-/

namespace LintRunner

/-- The refusals of the system, each known by its number. -/
inductive SystemError
  | notFound
  | notAProgram
  | accessDenied
  | notADirectory
  | isADirectory
  | nameTooLong
  | tooManyLinks
deriving DecidableEq, Repr

def SystemError.text : SystemError → String
  | .notFound => "No such file or directory"
  | .notAProgram => "Exec format error"
  | .accessDenied => "Permission denied"
  | .notADirectory => "Not a directory"
  | .isADirectory => "Is a directory"
  | .nameTooLong => "File name too long"
  | .tooManyLinks => "Too many levels of symbolic links"

def SystemError.number : SystemError → Nat
  | .notFound => 2
  | .notAProgram => 8
  | .accessDenied => 13
  | .notADirectory => 20
  | .isADirectory => 21
  | .nameTooLong => 36
  | .tooManyLinks => 40

inductive IoError
  | system (e : SystemError)
  | notUtf8
  | nulInPath
  | nulInCommand
  | brokenPipe
  | connectionReset
  | nothingWritten
deriving DecidableEq, Repr

def IoError.message : IoError → String
  | .system e => s!"{e.text} (os error {e.number})"
  | .notUtf8 => "stream did not contain valid UTF-8"
  | .nulInPath => "file name contained an unexpected NUL byte"
  | .nulInCommand => "nul byte found in provided data"
  | .brokenPipe => "broken pipe"
  | .connectionReset => "connection reset"
  | .nothingWritten => "failed to write whole buffer"

end LintRunner
