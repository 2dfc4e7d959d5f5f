import LintRunner.Glob.Glyph

/-!
# Tokens and branches of a glob

Tokens are what a glob asks of the bytes of a name. A single `*` is any run of
bytes, slashes included. Two stars between slashes, or between a slash and an end
of the glob, stand for whole directories.

A group `{a,b}` stands for either of its branches, so a glob with groups is a
choice between several lists of tokens. Two stars are read by what stands
around them in their own branch. Outside a group a comma is a character like
any other; an empty branch is left out of the choice.
-/

namespace LintRunner.Glob

inductive Token
  | byte (b : UInt8)
  | anyByte
  | cls (negated : Bool) (ranges : List (UInt8 × UInt8))
  | anything
  /-- Nothing, or whatever ends in a slash: `**/` at the start. -/
  | leadingDirectories
  /-- A slash and whatever follows: `/**` at the end. -/
  | trailingDirectories
  /-- A slash, or whatever begins and ends in one: `/**/` in between. -/
  | middleDirectories
deriving DecidableEq, Repr

/-- The bytes that a member of a class stands for. A single character stands
for each of its bytes; in a span the last byte of the first character and the
first byte of the last one bound the range, and the other bytes stand alone. -/
def Span.ranges (span : Span) : List (UInt8 × UInt8) :=
  let first := Utf8.encode [span.first]
  let last := Utf8.encode [span.last]
  let alone := fun b : UInt8 => (b, b)
  if span.first == span.last then first.map alone
  else
    first.dropLast.map alone ++
      ((first.getLast?.getD 0, last.headD 0) :: last.tail.map alone)

/-- A branch as far as it has been read: the choices up to the end of its last
group, if it has one, and the tokens behind that, which stand last first. -/
structure Branch where
  grouped : Option (List (List Token)) := none
  tail : List Token := []
deriving DecidableEq, Repr

namespace Branch

def isFresh (b : Branch) : Bool :=
  b.grouped.isNone && b.tail.isEmpty

def push (b : Branch) (t : Token) : Branch :=
  { b with tail := t :: b.tail }

/-- Two stars that stand for directories take the place of the slash before
them, or merge into directories that the branch already asks for. -/
def pushDirectories (b : Branch) (t : Token) : Branch :=
  match b.tail with
  | .leadingDirectories :: _ | .trailingDirectories :: _ => b
  | _ :: before => { b with tail := t :: before }
  | [] => b.push t

/-- All that the branch stands for. -/
def choices (b : Branch) : List (List Token) :=
  (b.grouped.getD [[]]).map (· ++ b.tail.reverse)

/-- The branch behind a group with these choices. -/
def behindGroup (b : Branch) (inner : List (List Token)) : Branch :=
  let inner := inner.filter (!·.isEmpty)
  let outer := b.choices
  let joined :=
    if inner.isEmpty then outer
    else outer.flatMap fun start => inner.map (start ++ ·)
  ⟨some joined, []⟩

end Branch

/-- A group that is open: the branch it stands in, and the choices of its
finished branches. -/
structure OpenGroup where
  outer : Branch
  finished : List (List Token)
deriving DecidableEq, Repr

/-- Whether a branch of the innermost group ends before these glyphs. -/
def endsBranch (groups : List OpenGroup) : List Glyph → Bool
  | [] => true
  | .comma :: _ | .closeGroup :: _ => !groups.isEmpty
  | _ => false

/-- Reads on in the branch `here` of the innermost group. -/
def readBranch (groups : List OpenGroup) (here : Branch) (afterSlash : Bool) :
    List Glyph → Except Fault Branch
  | [] => if groups.isEmpty then .ok here else .error .unclosedGroup
  | .broken fault :: _ => .error fault
  | .star :: .star :: .char '/' :: rest =>
    if here.isFresh then
      readBranch groups (here.push .leadingDirectories) true rest
    else if afterSlash then
      readBranch groups (here.pushDirectories .middleDirectories) true rest
    else
      readBranch groups (((here.push .anything).push .anything).push (.byte Bytes.slash)) true rest
  | .star :: .star :: rest =>
    if here.isFresh && rest.isEmpty then
      readBranch groups (here.push .leadingDirectories) false rest
    else if !here.isFresh && afterSlash && endsBranch groups rest then
      readBranch groups (here.pushDirectories .trailingDirectories) false rest
    else readBranch groups ((here.push .anything).push .anything) false rest
  | .star :: rest => readBranch groups (here.push .anything) false rest
  | .anyOne :: rest => readBranch groups (here.push .anyByte) false rest
  | .cls negated members :: rest =>
    readBranch groups (here.push (.cls negated (members.flatMap Span.ranges))) false rest
  | .char c :: rest =>
    readBranch groups ((Utf8.encode [c]).foldl (·.push <| .byte ·) here) (c == '/') rest
  | .openGroup :: rest => readBranch (⟨here, []⟩ :: groups) {} false rest
  | .closeGroup :: rest =>
    match groups with
    | [] => .error .unopenedGroup
    | group :: groups =>
      readBranch groups (group.outer.behindGroup (group.finished ++ here.choices)) false rest
  | .comma :: rest =>
    match groups with
    | [] => readBranch [] (here.push (.byte 0x2C)) false rest
    | group :: groups =>
      readBranch (⟨group.outer, group.finished ++ here.choices⟩ :: groups) {} false rest

end LintRunner.Glob
