import LintRunner.Ignore.Wildcard
import LintRunner.Log
import LintRunner.Path
import LintRunner.Text.Visible

/-!
# Ignore lists

A committed file is linted if its name ends in one of eight extensions and no
pattern of the ignore file matches it. An ignore file holds one pattern on each
line. A pattern that is no wildcard pattern is taken as plain text, so that no
line can end a run.
-/

namespace LintRunner

/-! ## Source files -/

def sourceExtensions : List String :=
  ["cpp", "hpp", "cxx", "hxx", "hh", "cc", "h", "c"]

/-- The letters of an extension count as written, and a name that is an extension
alone has none. -/
def isSourceFile (name : String) : Bool :=
  match (Path.ofText name).extension? with
  | some ext => sourceExtensions.any fun known => Bytes.ofText known == ext
  | none => false

/-! ## Patterns -/

/-- What became of a pattern. -/
inductive Compiled
  | wildcard (glob : Glob)
  | text (glob : Glob) (whyNoWildcard : Glob.Fault)
  | skipped (whyNoWildcard whyNoText : Glob.Fault)

namespace Compiled

def glob? : Compiled → Option Glob
  | .wildcard glob => some glob
  | .text glob _ => some glob
  | .skipped .. => none

def ofPattern (pattern : String) : Compiled :=
  let pattern := pattern.toList
  match Glob.ofText Wildcard.dialect (Wildcard.toGlob pattern) with
  | .ok glob => .wildcard glob
  | .error why =>
    match Glob.ofText Wildcard.textDialect (Wildcard.escape pattern) with
    | .ok glob => .text glob why
    | .error whyNoText => .skipped why whyNoText

/-- The complaint about a glob that cannot be read. -/
def complaint (glob : List Char) (fault : Glob.Fault) : String :=
  s!"error parsing glob '{String.ofList glob}': {fault.message}"

def warnings (pattern : String) : Compiled → List Log.Record
  | .wildcard _ => []
  | .text _ why => [noWildcard why]
  | .skipped why whyNoText => [noWildcard why, noText whyNoText]
where
  noWildcard why :=
    let error := complaint (Wildcard.toGlob pattern.toList) why
    ⟨.warn, s!"Ignore pattern {Text.quoted pattern} is matched literally: {error}"⟩
  noText why :=
    let error := complaint (Wildcard.escape pattern.toList) why
    ⟨.warn, s!"Ignore pattern {Text.quoted pattern} is skipped: {error}"⟩

end Compiled

/-- The patterns as they are written, and the globs of those not skipped. -/
structure IgnoreList where
  patterns : List String
  globs : List Glob

namespace IgnoreList

def empty : IgnoreList :=
  ⟨[], []⟩

def isEmpty (list : IgnoreList) : Bool :=
  list.patterns.isEmpty

def ofPatterns (patterns : List String) : IgnoreList :=
  ⟨patterns, patterns.filterMap fun p => (Compiled.ofPattern p).glob?⟩

/-- What is said while the patterns are compiled. -/
def warnings (patterns : List String) : List Log.Record :=
  patterns.flatMap fun p => (Compiled.ofPattern p).warnings p

/-- The patterns of an ignore file: its trimmed lines, without the blank ones
and those that start with `#`. -/
def patternsOf (contents : List Char) : List String :=
  (((Text.splitOn '\n' contents).map Text.trim).filter fun line =>
    !line.isEmpty && line.head? != some '#').map String.ofList

/-- The place of the first glob that matches the name. -/
def matchIndex? (list : IgnoreList) (name : String) : Option Nat :=
  list.globs.findIdx? (·.isMatch name)

def isIgnored (list : IgnoreList) (name : String) : Bool :=
  (list.matchIndex? name).isSome

/-- What is said about a name that is ignored. The pattern is the one at the
place of the glob that matches. -/
def report (list : IgnoreList) (name : String) : List Log.Record :=
  match (list.matchIndex? name).bind (list.patterns[·]?) with
  | some pattern =>
    [⟨.debug, s!"{name} is ignored as specified via {Text.quoted pattern}"⟩]
  | none => []

/-- The names of sources that are not ignored, in order. -/
def keepSources (list : IgnoreList) (names : List String) : List String :=
  names.filter fun name => isSourceFile name && !list.isIgnored name

/-- What is said while the sources are picked. -/
def reports (list : IgnoreList) (names : List String) : List Log.Record :=
  (names.filter isSourceFile).flatMap list.report

end IgnoreList

end LintRunner
