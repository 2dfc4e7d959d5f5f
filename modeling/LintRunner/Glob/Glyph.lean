import LintRunner.Text.Utf8

/-!
# The glyphs of a glob

A glob is read in two steps. This one takes it apart into glyphs: characters
that stand for themselves, `?`, `*`, whole classes such as `[a-z]`, and the
marks of a group `{…,…}`. A dialect says whether a backslash escapes the next
character, and whether a `[` that is never closed stands for itself. Where the
glob cannot be read any further, the last glyph tells why.
-/

namespace LintRunner.Glob

structure Dialect where
  backslashEscapes : Bool
  openClassIsText : Bool

/-- All characters from `first` to `last`. -/
structure Span where
  first : Char
  last : Char
deriving DecidableEq, Repr

/-- Why a glob cannot be read. -/
inductive Fault
  | reversedRange (first last : Char)
  | unclosedClass
  | unopenedGroup
  | unclosedGroup
  | danglingEscape
deriving DecidableEq, Repr

inductive Glyph
  | char (c : Char)
  | anyOne
  | star
  | cls (negated : Bool) (members : List Span)
  | openGroup
  | comma
  | closeGroup
  | broken (fault : Fault)
deriving DecidableEq, Repr

def Fault.message : Fault → String
  | .reversedRange first last => s!"invalid range; '{first}' > '{last}'"
  | .unclosedClass => "unclosed character class; missing ']'"
  | .unopenedGroup =>
    "unopened alternate group; missing '\x7b' (maybe escape '\x7d' with '[\x7d]'?)"
  | .unclosedGroup =>
    "unclosed alternate group; missing '\x7d' (maybe escape '\x7b' with '[\x7b]'?)"
  | .danglingEscape => "dangling '\\'"

/-- Where a class is being read: at its first member, behind some members, or
behind a `-` that may join the last member to the next character. -/
inductive ClassPlace
  | first
  | after
  | joining

/-- The members of a class and how many characters they take, the closing `]`
included; `none` if nothing closes it. The members so far stand last first. -/
def readMembers (place : ClassPlace) (members : List Span) (taken : Nat) :
    List Char → Except Fault (Option (List Span × Nat))
  | [] => .ok none
  | c :: rest =>
    match place, members with
    | .first, _ => readMembers .after [⟨c, c⟩] (taken + 1) rest
    | .joining, ⟨a, _⟩ :: others =>
      if c == ']' then .ok (some ((⟨'-', '-'⟩ :: members).reverse, taken + 1))
      else if c < a then .error (.reversedRange a c)
      else readMembers .after (⟨a, c⟩ :: others) (taken + 1) rest
    | _, _ =>
      if c == ']' then .ok (some (members.reverse, taken + 1))
      else if c == '-' then readMembers .joining members (taken + 1) rest
      else readMembers .after (⟨c, c⟩ :: members) (taken + 1) rest

/-- The class that the characters behind a `[` spell. -/
def readClass (rest : List Char) : Except Fault (Option (Glyph × Nat)) :=
  let negated := rest.head? == some '!' || rest.head? == some '^'
  let sign := if negated then 1 else 0
  match readMembers .first [] sign (rest.drop sign) with
  | .error fault => .error fault
  | .ok none => .ok none
  | .ok (some (members, taken)) => .ok (some (.cls negated members, taken))

/-- Reads on behind `skip` characters that belong to a glyph already read.
After one unclosed class every `[` stands for itself. -/
def readFrom (d : Dialect) (skip : Nat) (classes : Bool) : List Char → List Glyph
  | [] => []
  | c :: rest =>
    match skip with
    | skip + 1 => readFrom d skip classes rest
    | 0 =>
      match c with
      | '?' => .anyOne :: readFrom d 0 classes rest
      | '*' => .star :: readFrom d 0 classes rest
      | '\x7b' => .openGroup :: readFrom d 0 classes rest
      | '\x7d' => .closeGroup :: readFrom d 0 classes rest
      | ',' => .comma :: readFrom d 0 classes rest
      | '\\' =>
        if d.backslashEscapes then
          match rest with
          | [] => [.broken .danglingEscape]
          | e :: _ => .char e :: readFrom d 1 classes rest
        else .char c :: readFrom d 0 classes rest
      | '[' =>
        if !classes then .char c :: readFrom d 0 classes rest
        else
          match readClass rest with
          | .error fault => [.broken fault]
          | .ok (some (glyph, taken)) => glyph :: readFrom d taken classes rest
          | .ok none =>
            if d.openClassIsText then .char c :: readFrom d 0 false rest
            else [.broken .unclosedClass]
      | c => .char c :: readFrom d 0 classes rest

def glyphs (d : Dialect) (text : List Char) : List Glyph :=
  readFrom d 0 true text

end LintRunner.Glob
