import LintRunner.Text.Utf8
import LintRunner.Text.Visible

/-!
# Faults in JSON texts

Why a text cannot be read, and how many of its bytes were not read yet, which
gives the line and the column in the message.
-/

namespace LintRunner.Json

/-- A value found where another kind was expected. -/
inductive Found
  | null
  | boolean (value : Bool)
  | integer (value : Int)
  | float (shown : String)
  | string (text : String)
  | sequence
  | map
deriving DecidableEq, Repr

def Found.name : Found → String
  | .null => "null"
  | .boolean value => s!"boolean `{value}`"
  | .integer value => s!"integer `{value}`"
  | .float shown => s!"floating point `{shown}`"
  | .string text => s!"string {Text.quoted text}"
  | .sequence => "sequence"
  | .map => "map"

/-- The text ends too early, or is no JSON, or is JSON of another shape. -/
inductive Cause
  | endInValue
  | endInString
  | endInList
  | endInObject
  | expectedValue
  | expectedIdent
  | expectedColon
  | expectedListEnd
  | expectedObjectEnd
  | keyNotAString
  | trailingComma
  | trailingCharacters
  | invalidNumber
  | numberOutOfRange
  | invalidEscape
  | loneSurrogate
  | unfinishedSurrogates
  | controlInString
  | wrongType (found : Found) (expected : String)
  | missingField (name : String)
  | duplicateField (name : String)
  | wrongLength (length : Nat) (expected : String)
deriving DecidableEq, Repr

def Cause.message : Cause → String
  | .endInValue => "EOF while parsing a value"
  | .endInString => "EOF while parsing a string"
  | .endInList => "EOF while parsing a list"
  | .endInObject => "EOF while parsing an object"
  | .expectedValue => "expected value"
  | .expectedIdent => "expected ident"
  | .expectedColon => "expected `:`"
  | .expectedListEnd => "expected `,` or `]`"
  | .expectedObjectEnd => "expected `,` or `\x7d`"
  | .keyNotAString => "key must be a string"
  | .trailingComma => "trailing comma"
  | .trailingCharacters => "trailing characters"
  | .invalidNumber => "invalid number"
  | .numberOutOfRange => "number out of range"
  | .invalidEscape => "invalid escape"
  | .loneSurrogate => "lone leading surrogate in hex escape"
  | .unfinishedSurrogates => "unexpected end of hex escape"
  | .controlInString =>
    "control character (\\u0000-\\u001F) found while parsing a string"
  | .wrongType found expected => s!"invalid type: {found.name}, expected {expected}"
  | .missingField name => s!"missing field `{name}`"
  | .duplicateField name => s!"duplicate field `{name}`"
  | .wrongLength length expected => s!"invalid length {length}, expected {expected}"

inductive Category
  | earlyEnd
  | grammar
  | shape
deriving DecidableEq, Repr

def Cause.category : Cause → Category
  | .endInValue | .endInString | .endInList | .endInObject => .earlyEnd
  | .wrongType .. | .missingField _ | .duplicateField _ | .wrongLength .. => .shape
  | _ => .grammar

structure Fault where
  cause : Cause
  left : Nat
deriving DecidableEq, Repr

abbrev Result (α : Type) := Except Fault α

/-- A fault behind the bytes that were read. -/
def here {α : Type} (cause : Cause) (rest : Bytes) : Result α :=
  .error ⟨cause, rest.length⟩

/-- A fault at the next byte, which counts as read. -/
def ahead {α : Type} (cause : Cause) (rest : Bytes) : Result α :=
  .error ⟨cause, rest.length - 1⟩

/-- The line where the reading stopped, and the number of its bytes read. -/
def Fault.position (f : Fault) (text : Bytes) : Nat × Nat :=
  let before := text.take (text.length - f.left)
  let column := before.reverse.takeWhile (· != 10)
  (before.count 10 + 1, column.length)

def Fault.message (f : Fault) (text : Bytes) : String :=
  let (line, column) := f.position text
  s!"{f.cause.message} at line {line} column {column}"

end LintRunner.Json
