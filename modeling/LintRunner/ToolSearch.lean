import LintRunner.Host.Basic
import LintRunner.Log
import LintRunner.Version

/-!
# Finding the clang tools

The version a user asks for is either a version number, which picks the tool
with that number behind its name if there is one, or a list of directories to
look in instead of the search path.
-/

namespace LintRunner

inductive ToolError
  | noName
  | noNameOrVersion
  | noPath
deriving DecidableEq, Repr

def ToolError.message : ToolError → String
  | .noName => "Could not find clang tool by name"
  | .noNameOrVersion => "Could not find clang tool by name and version"
  | .noPath => "Could not find clang tool by path"

namespace Host

def findTool (h : Host) (name version : String) : Except ToolError Path :=
  let find (name : String) (dirs : Option Bytes) (e : ToolError) : Except ToolError Path :=
    match h.find? (.ofText name) dirs with
    | some path => .ok path
    | none => .error e
  if version.isEmpty then find name h.searchPath .noName
  else
    match Version.major? version with
    | some major =>
      match h.find? (.ofText s!"{name}-{major}") h.searchPath with
      | some path => .ok path
      | none => find name h.searchPath .noNameOrVersion
    | none => find name (some (Bytes.ofText version)) .noPath

/-- The program to start for a tool, and what is said about it. A tool that
the user named is taken as it is; one that is not found is left to the system
to look for. -/
def resolveTool (h : Host) (configured default version : String) :
    String × List Log.Record :=
  if configured != default then (configured, [])
  else
    match h.findTool default version with
    | .ok path => (path.display, [⟨.debug, s!"Using {path.display}"⟩])
    | .error e => (configured, [⟨.debug, s!"{e.message}: {default}"⟩])

end Host

end LintRunner
