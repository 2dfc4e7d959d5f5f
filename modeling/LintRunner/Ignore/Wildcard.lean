import LintRunner.Glob.Match

/-!
# Wildcard patterns

The patterns of an ignore file know `*`, `?` and classes, and no groups. They
are spelled out as globs: a brace becomes a class with one member, and so does
a `[` that no `]` closes. Classes are kept as they are.
-/

namespace LintRunner.Wildcard

/-- How many characters behind a `[` belong to its class, the `]` included.
A `]` directly behind `[` or `[!` is a member. -/
def classLength (rest : List Char) : Option Nat :=
  let sign := if rest.head? == some '!' then 1 else 0
  let first := if (rest.drop sign).head? == some ']' then 1 else 0
  ((rest.drop (sign + first)).findIdx? (· == ']')).map (sign + first + 1 + ·)

/-- Spells out what follows `copied` characters that are kept as they are. -/
def spellFrom (copied : Nat) : List Char → List Char
  | [] => []
  | c :: rest =>
    match copied with
    | copied + 1 => c :: spellFrom copied rest
    | 0 =>
      if c == '\x7b' || c == '\x7d' then '[' :: c :: ']' :: spellFrom 0 rest
      else if c == '[' then
        match classLength rest with
        | some length => '[' :: spellFrom length rest
        | none => '[' :: '[' :: ']' :: spellFrom 0 rest
      else c :: spellFrom 0 rest

/-- The glob that stands for the pattern. -/
def toGlob (pattern : List Char) : List Char :=
  spellFrom 0 pattern

/-- How the globs of patterns are read. -/
def dialect : Glob.Dialect := ⟨false, true⟩

/-- A glob for the pattern as a plain text: every character with a meaning of
its own becomes a class with one member. -/
def escape (pattern : List Char) : List Char :=
  pattern.flatMap fun c =>
    if c ∈ ['?', '*', '[', ']', '\x7b', '\x7d'] then ['[', c, ']'] else [c]

/-- How the globs of plain texts are read. -/
def textDialect : Glob.Dialect := ⟨true, false⟩

end LintRunner.Wildcard
