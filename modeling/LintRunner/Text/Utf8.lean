/-!
# Text as bytes

A text is written in UTF-8. Bytes are read back one at a time: the reader is
either between two characters or inside one, and knows which bytes may come
next. A byte that cannot come next ends the bad piece before it, so each bad
piece is as long as some character begins with, and reading goes on behind it.
What is written on lines, or between slashes, is cut at each of them.
-/

namespace LintRunner

/-- What files, pipes and paths hold. -/
abbrev Bytes := List UInt8

namespace Utf8

def encode (text : List Char) : Bytes :=
  text.flatMap String.utf8EncodeChar

/-- Where the reader stands. Inside a character it still needs `need` bytes,
the next one lies between `lo` and `hi`, and `acc` holds the bits so far. -/
inductive Reader
  | ready
  | inside (need : Nat) (lo hi : UInt8) (acc : Nat)

/-- The first byte of a character, and what it gives: a character, a bad
piece (`none`), or nothing yet. -/
def Reader.start (b : UInt8) : List (Option Char) × Reader :=
  if b < 0x80 then ([some (Char.ofNat b.toNat)], .ready)
  else if 0xC2 ≤ b && b ≤ 0xDF then ([], .inside 1 0x80 0xBF (b.toNat - 0xC0))
  else if b == 0xE0 then ([], .inside 2 0xA0 0xBF 0)
  else if b == 0xED then ([], .inside 2 0x80 0x9F 13)
  else if 0xE1 ≤ b && b ≤ 0xEF then ([], .inside 2 0x80 0xBF (b.toNat - 0xE0))
  else if b == 0xF0 then ([], .inside 3 0x90 0xBF 0)
  else if 0xF1 ≤ b && b ≤ 0xF3 then ([], .inside 3 0x80 0xBF (b.toNat - 0xF0))
  else if b == 0xF4 then ([], .inside 3 0x80 0x8F 4)
  else ([none], .ready)

def Reader.step : Reader → UInt8 → List (Option Char) × Reader
  | .ready, b => start b
  | .inside need lo hi acc, b =>
    if lo ≤ b && b ≤ hi then
      let acc := acc * 64 + (b.toNat - 0x80)
      match need with
      | 0 | 1 => ([some (Char.ofNat acc)], .ready)
      | more + 1 => ([], .inside more 0x80 0xBF acc)
    else
      (none :: (start b).1, (start b).2)

/-- A character that the input ends inside is a bad piece. -/
def Reader.finish : Reader → List (Option Char)
  | .ready => []
  | .inside .. => [none]

def pieces : Reader → Bytes → List (Option Char)
  | r, [] => r.finish
  | r, b :: rest => (r.step b).1 ++ pieces (r.step b).2 rest

/-- The characters and the bad pieces (`none`) of the bytes, in order. -/
def decode (bytes : Bytes) : List (Option Char) :=
  pieces .ready bytes

/-- The text of bytes that hold no bad piece. -/
def decode? (bytes : Bytes) : Option (List Char) :=
  (decode bytes).mapM id

/-- Stands in a text where the bytes held a bad piece. -/
def replacement : Char := '\uFFFD'

def decodeLossy (bytes : Bytes) : List Char :=
  (decode bytes).map (·.getD replacement)

end Utf8

/-- The bytes that paths and file names are cut at. -/
def Bytes.slash : UInt8 := 0x2F
def Bytes.dot : UInt8 := 0x2E

def Bytes.ofText (text : String) : Bytes :=
  Utf8.encode text.toList

def Bytes.text? (bytes : Bytes) : Option String :=
  (Utf8.decode? bytes).map String.ofList

def Bytes.lossy (bytes : Bytes) : String :=
  String.ofList (Utf8.decodeLossy bytes)

/-! ## Lists cut at a separator -/

namespace Text

/-- The pieces between the separators: always one more than there are
separators. -/
def splitOn {α : Type} [BEq α] (separator : α) : List α → List (List α)
  | [] => [[]]
  | a :: rest =>
    if a == separator then [] :: splitOn separator rest
    else
      match splitOn separator rest with
      | [] => [[a]]
      | piece :: pieces => (a :: piece) :: pieces

def joinWith {α : Type} (separator : α) : List (List α) → List α
  | [] => []
  | [piece] => piece
  | piece :: pieces => piece ++ separator :: joinWith separator pieces

end Text

end LintRunner
