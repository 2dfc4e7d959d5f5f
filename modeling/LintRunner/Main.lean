import LintRunner.Session

/-!
# The command line

Reads the arguments, the caller's directory and the environment, and shows the
answer. The host that is handed on holds no repository and no program, so help
and usage messages are complete, and a run ends where it looks for the work
tree.
-/

namespace LintRunner

/-- A host with the caller's directory and nothing else in it. -/
def Host.ofEnvironment (cwd : String) (searchPath home stepDebug : Option String) :
    Host :=
  let cwd := Path.ofText cwd
  { files := (FileTree.empty.createDirectory [] cwd).1
    repositories := fun _ => none
    cwd := cwd.resolve.names
    searchPath := searchPath.map Bytes.ofText
    home := home.map Bytes.ofText
    stepDebug }

def Answer.exitCode (a : Answer) : UInt32 :=
  UInt32.ofNat (a.code % 256).toNat

end LintRunner

open LintRunner

def main (args : List String) : IO UInt32 := do
  let host := Host.ofEnvironment (← IO.currentDir).toString (← IO.getEnv "PATH")
    (← IO.getEnv "HOME") (← IO.getEnv "ACTIONS_STEP_DEBUG")
  let answer := host.answer ((← IO.appPath).toString :: args)
  (← IO.getStdout).write (ByteArray.mk answer.output.toArray)
  (← IO.getStderr).write (ByteArray.mk answer.errorOutput.toArray)
  return answer.exitCode
