/-!
# Lenient version numbers

A version starts with its major number, maybe behind a `v`. Further numbers, a
pre-release and a build may follow; only the major number is kept. Blanks
around the version are dropped.
-/

namespace LintRunner.Version

def isBlank (c : Char) : Bool :=
  c == ' ' || c == '\t' || c == '\n' || c == '\x0c' || c == '\r'

/-- Where a version may stand behind its first digit. -/
inductive Place
  | major
  | afterDot
  | number
  | beforePre
  | pre
  | beforeBuild
  | build
deriving DecidableEq, Repr

def Place.isComplete : Place → Bool
  | .major | .number | .pre | .build => true
  | .afterDot | .beforePre | .beforeBuild => false

def Place.next? (p : Place) (c : Char) : Option Place :=
  match p with
  | .major => if c.isDigit then some .major else separator?
  | .afterDot =>
    if c.isDigit then some .number else if c.isAlpha then some .pre else none
  | .number =>
    if c.isDigit then some .number else if c.isAlpha then some .pre else separator?
  | .beforePre => if c.isAlphanum then some .pre else none
  | .pre =>
    if c.isAlphanum || c == '.' || c == '-' then some .pre
    else if c == '+' then some .beforeBuild else none
  | .beforeBuild => if c.isAlphanum then some .build else none
  | .build =>
    if c.isAlphanum || c == '.' || c == '-' || c == '+' then some .build else none
where
  separator? : Option Place :=
    if c == '.' then some .afterDot
    else if c == '-' then some .beforePre
    else if c == '+' then some .beforeBuild
    else none

def isTail (tail : List Char) : Bool :=
  match tail.foldlM Place.next? .major with
  | some p => p.isComplete
  | none => false

def numberOf (digits : List Char) : Nat :=
  digits.foldl (fun n c => n * 10 + (c.toNat - 48)) 0

def dropSign : List Char → List Char
  | 'v' :: rest | 'V' :: rest => rest
  | text => text

/-- The least number with more than 64 bits. -/
def numberBound : Nat := 0x10000000000000000

/-- The major number of a version; it has 64 bits. -/
def major? (text : String) : Option Nat :=
  let text := (text.toList.dropWhile isBlank).reverse.dropWhile isBlank
  let text := dropSign text.reverse
  let digits := text.takeWhile Char.isDigit
  let major := numberOf digits
  if !digits.isEmpty && major < numberBound && isTail (text.dropWhile Char.isDigit) then
    some major
  else none

end LintRunner.Version
