import LintRunner.Text.Utf8

/-!
# Paths

A path is kept as it was written. Its components forget how it was written:
repeated slashes, a slash at the end, and every `.` but a leading one. Resolved
by its letters, it has no `.` and no `..` left.
-/

namespace LintRunner

structure Path where
  raw : Bytes
deriving DecidableEq, Repr, Inhabited

namespace Path

open Bytes (slash dot)

inductive Component
  | root
  | current
  | parent
  | name (bytes : Bytes)
deriving DecidableEq, Repr

def ofText (text : String) : Path :=
  ⟨Bytes.ofText text⟩

/-- The path for a reader; bytes that are no text are replaced. -/
def display (p : Path) : String :=
  p.raw.lossy

def isAbsolute (p : Path) : Bool :=
  p.raw.head? == some slash

/-- What stands between the slashes, empty pieces included. -/
def segments (p : Path) : List Bytes :=
  Text.splitOn slash p.raw

/-- The component of a segment that is not the first one of a relative path. -/
def Component.ofSegment? (segment : Bytes) : Option Component :=
  if segment.isEmpty || segment == [dot] then none
  else if segment == [dot, dot] then some .parent
  else some (.name segment)

def components (p : Path) : List Component :=
  match p.segments with
  | [] => []
  | first :: rest =>
    let rest := rest.filterMap Component.ofSegment?
    if p.isAbsolute then .root :: rest
    else if first == [dot] then .current :: rest
    else (Component.ofSegment? first).toList ++ rest

/-- The path `q` as seen from `p`: an absolute `q` stands alone, any other is
appended after one slash. -/
def join (p q : Path) : Path :=
  if q.isAbsolute || p.raw.isEmpty then q
  else if p.raw.getLast? == some slash then ⟨p.raw ++ q.raw⟩
  else ⟨p.raw ++ slash :: q.raw⟩

/-- The last component, if it is a name. -/
def fileName? (p : Path) : Option Bytes :=
  match p.components.getLast? with
  | some (.name bytes) => some bytes
  | _ => none

/-- What follows the last dot of a file name that has something before it. -/
def extensionOf? (name : Bytes) : Option Bytes :=
  let suffix := (name.reverse.takeWhile (· != dot)).reverse
  let stem := (name.reverse.dropWhile (· != dot)).tail
  if stem.isEmpty then none else some suffix

def extension? (p : Path) : Option Bytes :=
  p.fileName?.bind extensionOf?

/-! ## Paths resolved by their letters

`.` and `..` are resolved without a look at any directory: `..` takes back the
name before it, and at the beginning of the path it is dropped. -/

/-- A path without `.` and `..`: where it starts, and its names in order. -/
structure Resolved where
  absolute : Bool
  names : List Bytes
deriving DecidableEq, Repr

/-- One component more; the names stand innermost first. -/
def climb (names : List Bytes) : Component → List Bytes
  | .root | .current => names
  | .parent => names.tail
  | .name bytes => bytes :: names

def resolve (p : Path) : Resolved where
  absolute := p.isAbsolute
  names := (p.components.foldl climb []).reverse

def Resolved.path (r : Resolved) : Path :=
  let names := Text.joinWith slash r.names
  if r.absolute then ⟨slash :: names⟩ else ⟨names⟩

def normalize (p : Path) : Path :=
  p.resolve.path

/-- The path `p` as seen from the directory `cwd`. An absolute path is left as
it is written. -/
def absolutize (p cwd : Path) : Path :=
  if p.isAbsolute then p else (cwd.join p).normalize

end Path

end LintRunner
