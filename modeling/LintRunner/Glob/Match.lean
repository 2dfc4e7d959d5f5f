import LintRunner.Glob.Branch

/-!
# Names that match a glob

`accepts` says when tokens match a name: the name is cut into one piece for
each token. `table` answers the same for every end piece of the name at once,
one token after the other, so that no piece is tried twice.
-/

namespace LintRunner.Glob

open Bytes (slash dot)

def inClass (negated : Bool) (ranges : List (UInt8 × UInt8)) (b : UInt8) : Bool :=
  (ranges.any fun r => r.1 ≤ b && b ≤ r.2) != negated

/-- All end pieces of a name, the whole name first. -/
def suffixes : Bytes → List Bytes
  | [] => [[]]
  | b :: rest => (b :: rest) :: suffixes rest

/-- The end pieces that begin behind a slash. -/
def behindSlashes : Bytes → List Bytes
  | [] => []
  | b :: rest => if b == slash then rest :: behindSlashes rest else behindSlashes rest

/-- What may be left of a name once the token has had its piece. -/
def Token.rests (t : Token) (name : Bytes) : List Bytes :=
  match t, name with
  | .byte b, c :: rest => if c == b then [rest] else []
  | .anyByte, _ :: rest => [rest]
  | .cls negated ranges, c :: rest => if inClass negated ranges c then [rest] else []
  | .anything, name => suffixes name
  | .leadingDirectories, name => name :: behindSlashes name
  | .trailingDirectories, c :: rest => if c == slash then suffixes rest else []
  | .middleDirectories, c :: rest =>
    if c == slash then rest :: behindSlashes rest else []
  | _, [] => []

def accepts : List Token → Bytes → Bool
  | [], name => name.isEmpty
  | t :: tokens, name => (t.rests name).any (accepts tokens)

/-! ## Answers for all end pieces

A column holds one answer for each end piece of the name, the whole name
first and the empty piece last. -/

/-- The first byte passes `p`, and the piece behind it has the answer. -/
def firstThen (p : UInt8 → Bool) : Bytes → List Bool → List Bool
  | b :: name, _ :: column => (p b && column.headD false) :: firstThen p name column
  | _, _ => [false]

/-- Some end piece of the piece has the answer. -/
def anywhere : List Bool → List Bool
  | [] => []
  | answer :: column =>
    let rest := anywhere column
    (answer || rest.headD false) :: rest

/-- Some end piece that begins behind a slash of the piece has the answer. -/
def behindSlash : Bytes → List Bool → List Bool
  | b :: name, _ :: column =>
    let rest := behindSlash name column
    ((b == slash && column.headD false) || rest.headD false) :: rest
  | _, _ => [false]

def either (a b : List Bool) : List Bool :=
  List.zipWith (· || ·) a b

def Token.column (t : Token) (name : Bytes) (column : List Bool) : List Bool :=
  match t with
  | .byte b => firstThen (· == b) name column
  | .anyByte => firstThen (fun _ => true) name column
  | .cls negated ranges => firstThen (inClass negated ranges) name column
  | .anything => anywhere column
  | .leadingDirectories => either column (behindSlash name column)
  | .trailingDirectories => firstThen (· == slash) name (anywhere column)
  | .middleDirectories =>
    firstThen (· == slash) name (either column (behindSlash name column))

/-- Which end pieces of the name the tokens match. -/
def table (tokens : List Token) (name : Bytes) : List Bool :=
  tokens.foldr (fun t column => t.column name column)
    ((suffixes name).map (·.isEmpty))

/-! ## Globs that look at the file name

Some globs are decided by the last component of a name alone. A name that
ends in `..` has no file name, so they never match it. -/

def Token.isText : Token → Bool
  | .byte _ => true
  | _ => false

def afterLeading : List Token → List Token
  | .leadingDirectories :: rest => rest
  | tokens => tokens

/-- Leading directories and then a text without a slash. -/
def isNameText : List Token → Bool
  | .leadingDirectories :: rest =>
    !rest.isEmpty && rest.all fun t => t.isText && t != .byte slash
  | _ => false

/-- A star, a dot, and a text with neither a dot nor a slash. -/
def isExtension (tokens : List Token) : Bool :=
  match afterLeading tokens with
  | .anything :: .byte b :: rest =>
    b == dot && rest.all fun t => t.isText && t != .byte slash && t != .byte dot
  | _ => false

/-- A text, then a star or trailing directories. -/
def isPrefixText (tokens : List Token) : Bool :=
  match tokens.reverse with
  | .anything :: text => !text.isEmpty && text.all Token.isText
  | .trailingDirectories :: text => text.all Token.isText
  | _ => false

/-- A text at the end, behind at most leading directories and one star. -/
def isSuffixText (tokens : List Token) : Bool :=
  match tokens with
  | .leadingDirectories :: .byte _ :: rest => rest.all Token.isText
  | _ =>
    match afterLeading tokens with
    | .anything :: text =>
      !text.isEmpty && text.all Token.isText && text != [.byte slash]
    | _ => false

/-- The text at the end holds a dot with no slash behind it. -/
def endsInExtension (tokens : List Token) : Bool :=
  let last := tokens.reverse.takeWhile fun t =>
    t.isText && t != .byte slash && t != .byte dot
  tokens.reverse[last.length]? == some (.byte dot)

def decidedByName (tokens : List Token) : Bool :=
  isNameText tokens ||
    (!tokens.all Token.isText &&
      (isExtension tokens ||
        (!isPrefixText tokens && !isSuffixText tokens && endsInExtension tokens)))

/-- Of a branch with groups only the text at its end counts. -/
def Branch.decidedByName (b : Branch) : Bool :=
  if b.grouped.isSome then endsInExtension b.tail.reverse
  else Glob.decidedByName b.tail.reverse

def lastSegment (name : Bytes) : Bytes :=
  (name.reverse.takeWhile (· != slash)).reverse

end LintRunner.Glob

namespace LintRunner

/-- A glob that has been read: a choice of token lists, and whether the last
component of a name decides. -/
structure Glob where
  choices : List (List Glob.Token)
  byName : Bool
deriving DecidableEq, Repr

namespace Glob

/-- The glob of one branch. Leading directories with nothing before or behind
them are no restriction. -/
def ofBranch (b : Branch) : Glob :=
  if b == ⟨none, [.leadingDirectories]⟩ then ⟨[[.anything]], false⟩
  else ⟨b.choices, b.decidedByName⟩

def ofText (d : Dialect) (text : List Char) : Except Fault Glob :=
  (readBranch [] {} false (glyphs d text)).map ofBranch

def isMatch (glob : Glob) (name : String) : Bool :=
  let name := Bytes.ofText name
  !(glob.byName && lastSegment name == [Bytes.dot, Bytes.dot]) &&
    glob.choices.any fun tokens => (table tokens name).headD false

end Glob

end LintRunner
