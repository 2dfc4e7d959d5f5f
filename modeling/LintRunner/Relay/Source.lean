import LintRunner.Host.IoError
import LintRunner.Text.Utf8

/-!
# Lines from a source of bytes

A source hands out its bytes in pieces, of whatever size, and may fail between
two of them. A line goes up to its line feed and may stretch over many pieces;
the last line may have no line feed.
-/

namespace LintRunner.Relay

inductive Read
  | piece (bytes : Bytes)
  | failure (error : IoError)
deriving DecidableEq, Repr

def lineFeed : UInt8 := 10

/-- The lines that a piece completes, and the line it leaves open. The open
line stands last byte first. -/
def completed (line : Bytes) : Bytes → List Bytes × Bytes
  | [] => ([], line)
  | b :: rest =>
    if b == lineFeed then
      let (lines, last) := completed [] rest
      ((b :: line).reverse :: lines, last)
    else completed (b :: line) rest

/-- The lines that the reads make up behind an open line, and the failure that
ends them. A line that is still open then is lost. -/
def linesFrom (line : Bytes) : List Read → List Bytes × Option IoError
  | [] => (if line.isEmpty then [] else [line.reverse], none)
  | .failure e :: _ => ([], some e)
  | .piece bytes :: reads =>
    let (lines, line) := completed line bytes
    let (more, failure) := linesFrom line reads
    (lines ++ more, failure)

def lines (reads : List Read) : List Bytes × Option IoError :=
  linesFrom [] reads

/-! ## Pieces of a given size -/

/-- Cuts the bytes into pieces; `room` more of them go into the open piece. -/
def piecesFrom (size room : Nat) (piece : Bytes) : Bytes → List Bytes
  | [] => if piece.isEmpty then [] else [piece.reverse]
  | b :: rest =>
    match room with
    | 0 | 1 => (b :: piece).reverse :: piecesFrom size size [] rest
    | room + 2 => piecesFrom size (room + 1) (b :: piece) rest

def pieces (size : Nat) (bytes : Bytes) : List Bytes :=
  piecesFrom size size [] bytes

/-- The reads of a buffer with the given size. The source fails once it has
handed out `failAt` bytes; a buffer without room gets nothing from it. -/
def reads (size : Nat) (failAt : Option Nat) (bytes : Bytes) : List Read :=
  let bytes := if size == 0 then [] else bytes
  match failAt with
  | none => (pieces size bytes).map .piece
  | some n =>
    if n ≤ bytes.length then
      (pieces size (bytes.take n)).map .piece ++ [.failure .connectionReset]
    else (pieces size bytes).map .piece

end LintRunner.Relay
