import LintRunner.Json.Skip
import LintRunner.Path

/-!
# Compilation databases

A build writes down how each file is compiled: a JSON list of units, each an
object with a `directory` and a `file`, or a list of just these two. Here a
database says which committed files have no unit. Paths are compared by what
they resolve to, not by how they are spelled.
-/

namespace LintRunner

/-- A compiled file, as seen from the directory it is compiled in. -/
structure BuildUnit where
  directory : Path
  file : Path
deriving DecidableEq, Repr

def BuildUnit.path (u : BuildUnit) : Path :=
  (u.directory.join u.file).normalize

namespace Json

/-- The fault of a value that is none of the kind expected here. -/
def wrongType {α : Type} (expected : String) (text : Bytes) : Result α :=
  let found (what : Found) (rest : Bytes) : Result α :=
    here (.wrongType what expected) rest
  match text with
  | [] => ahead .expectedValue []
  | b :: rest =>
    if b == 0x6E then word nullRest rest >>= found .null
    else if b == 0x74 then word trueRest rest >>= found (.boolean true)
    else if b == 0x66 then word falseRest rest >>= found (.boolean false)
    else if b == minus then do
      let (n, rest) ← numeral .keep true rest
      found (← n.found rest) rest
    else if isDigit b then do
      let (n, rest) ← numeral .keep false text
      found (← n.found rest) rest
    else if b == quote then do
      let (content, rest) ← string .keep rest
      found (.string content.lossy) rest
    else if b == openList then found .sequence text
    else if b == openObject then found .map text
    else ahead .expectedValue text

/-- A string that is wanted. -/
def wantedString (text : Bytes) : Result (Bytes × Bytes) :=
  match skipSpace text with
  | [] => ahead .endInValue []
  | b :: rest =>
    if b == quote then string .keep rest else wrongType "a string" (b :: rest)

/-- The next element of a list; `none` at its end, which is left to be read. -/
def nextElement (first : Bool) (text : Bytes) : Result (Option Bytes) :=
  match skipSpace text with
  | [] => ahead .endInList []
  | b :: rest =>
    if b == closeList then .ok none
    else if first then .ok (some (b :: rest))
    else if b == comma then
      match skipSpace rest with
      | [] => ahead .endInValue []
      | c :: rest =>
        if c == closeList then ahead .trailingComma (c :: rest)
        else .ok (some (c :: rest))
    else ahead .expectedListEnd (b :: rest)

/-- What is left behind the end of a list. -/
def endOfList (text : Bytes) : Result Bytes :=
  match skipSpace text with
  | [] => ahead .endInList []
  | b :: rest =>
    if b == closeList then .ok rest
    else if b == comma then
      match skipSpace rest with
      | c :: behind =>
        if c == closeList then ahead .trailingComma (c :: behind)
        else ahead .trailingCharacters (c :: behind)
      | [] => ahead .trailingCharacters []
    else ahead .trailingCharacters (b :: rest)

/-- Behind the opening quote of the next member; `none` at the end of the
object, which is left to be read. -/
def nextMember (first : Bool) (text : Bytes) : Result (Option Bytes) :=
  match skipSpace text with
  | [] => ahead .endInObject []
  | b :: rest =>
    if b == closeObject then .ok none
    else if first then
      if b == quote then .ok (some rest) else ahead .keyNotAString (b :: rest)
    else if b == comma then
      match skipSpace rest with
      | [] => ahead .endInValue []
      | c :: rest =>
        if c == quote then .ok (some rest)
        else if c == closeObject then ahead .trailingComma (c :: rest)
        else ahead .keyNotAString (c :: rest)
    else ahead .expectedObjectEnd (b :: rest)

end Json

namespace BuildUnit

open Json

def directoryKey : String := "directory"
def fileKey : String := "file"

/-- A fault in the shape of an object counts behind the end of the object, if
that comes next. -/
def misshapen {α : Type} (cause : Cause) (text : Bytes) : Result α :=
  match skipSpace text with
  | b :: rest => here cause (if b == closeObject then rest else b :: rest)
  | [] => here cause []

/-- The unit of an object with these members, once its end is reached. -/
def ofMembers (directory file : Option Bytes) (text : Bytes) :
    Result (BuildUnit × Bytes) :=
  match directory, file with
  | none, _ => misshapen (.missingField directoryKey) text
  | _, none => misshapen (.missingField fileKey) text
  | some directory, some file =>
    .ok (⟨⟨directory⟩, ⟨file⟩⟩, (skipSpace text).tail)

/-- Reads the members behind those that gave the directory and the file so far.
The length of the text bounds their number. -/
def members (directory file : Option Bytes) (first : Bool) :
    Nat → Bytes → Result (BuildUnit × Bytes)
  | 0, text => ahead .endInObject text
  | more + 1, text => do
    match ← nextMember first text with
    | none => ofMembers directory file text
    | some text =>
      let (key, text) ← string .keep text
      if key == Bytes.ofText directoryKey then
        if directory.isSome then misshapen (.duplicateField directoryKey) text
        else
          let (value, text) ← wantedString (← behindColon text)
          members (some value) file false more text
      else if key == Bytes.ofText fileKey then
        if file.isSome then misshapen (.duplicateField fileKey) text
        else
          let (value, text) ← wantedString (← behindColon text)
          members directory (some value) false more text
      else members directory file false more (← skipValue (← behindColon text))

/-- The fault of a list that ends before it has two elements. -/
def tooShort {α : Type} (length : Nat) (text : Bytes) : Result α :=
  here (.wrongLength length "struct CompilationUnit with 2 elements")
    (skipSpace text).tail

def elements (text : Bytes) : Result (BuildUnit × Bytes) := do
  match ← nextElement true text with
  | none => tooShort 0 text
  | some text =>
    let (directory, text) ← wantedString text
    match ← nextElement false text with
    | none => tooShort 1 text
    | some text =>
      let (file, text) ← wantedString text
      return (⟨⟨directory⟩, ⟨file⟩⟩, ← endOfList text)

def read (text : Bytes) : Result (BuildUnit × Bytes) :=
  match skipSpace text with
  | [] => ahead .endInValue []
  | b :: rest =>
    if b == openObject then members none none true (rest.length + 1) rest
    else if b == openList then elements rest
    else wrongType "struct CompilationUnit" (b :: rest)

end BuildUnit

structure CompilationDatabase where
  units : List BuildUnit
deriving DecidableEq, Repr

namespace CompilationDatabase

open Json

/-- The units of a list behind its opening bracket, and what is left behind
its end. -/
def units? (first : Bool) : Nat → Bytes → Result (List BuildUnit × Bytes)
  | 0, text => ahead .endInList text
  | more + 1, text => do
    match ← nextElement first text with
    | none => return ([], (skipSpace text).tail)
    | some text =>
      let (unit, text) ← BuildUnit.read text
      let (units, text) ← units? false more text
      return (unit :: units, text)

def ofJson (text : Bytes) : Result CompilationDatabase :=
  match skipSpace text with
  | [] => ahead .endInValue []
  | b :: rest =>
    if b == openList then do
      let (units, rest) ← units? true (rest.length + 1) rest
      match skipSpace rest with
      | [] => return ⟨units⟩
      | c :: rest => ahead .trailingCharacters (c :: rest)
    else wrongType "a sequence" (b :: rest)

def size (db : CompilationDatabase) : Nat :=
  db.units.length

def isEmpty (db : CompilationDatabase) : Bool :=
  db.units.isEmpty

def paths (db : CompilationDatabase) : List Path :=
  db.units.map (·.path)

/-- The names under `root` that no unit compiles, in order. -/
def missing (db : CompilationDatabase) (root : Path) (names : List String) : List String :=
  let known := db.paths.map (·.components)
  let root := root.normalize
  names.filter fun name => !known.contains (root.join (.ofText name)).components

end CompilationDatabase

end LintRunner
