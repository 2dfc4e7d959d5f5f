import LintRunner.Relay.Source
import LintRunner.Relay.Writer

/-!
# Relaying and scanning lines

Each line goes to the writer as it came, is flushed, and is looked at for a
diagnostic. The first failure of either side ends the relay. A line that holds
one of two markers is taken for a diagnostic, wherever in the line the marker
stands.
-/

namespace LintRunner.Relay

/-! ## Diagnostics -/

def markers : List String :=
  ["warning:", "error:"]

/-- Whether the piece stands somewhere in the text. -/
def holds {α : Type} [BEq α] (piece : List α) : List α → Bool
  | [] => piece.isEmpty
  | a :: text => piece.isPrefixOf (a :: text) || holds piece text

def isDiagnostic (line : List Char) : Bool :=
  markers.any fun marker => holds marker.toList line

/-- The exit code of a run that looks for diagnostics: that of the
orchestrator if it failed by itself, and otherwise whether one was found. -/
def exitCode (code : Option Int) (found : Bool) : Int :=
  match code with
  | some code => if code != 0 then code else if found then 1 else 0
  | none => if found then 1 else 0

/-! ## The relay -/

/-- What a writer sees. -/
inductive Arrival
  | bytes (bytes : Bytes)
  | flush
deriving DecidableEq, Repr

def Arrival.ofTaken (taken : Bytes) : List Arrival :=
  if taken.isEmpty then [] else [.bytes taken]

variable {σ : Type} [Writer σ]

/-- Relays the lines, and tells whether one of them is a diagnostic. `failure`
is what ended the lines. -/
def relay (s : σ) (found : Bool) (failure : Option IoError) :
    List Bytes → List Arrival × Except IoError Bool
  | [] =>
    match failure with
    | none => ([], .ok found)
    | some e => ([], .error e)
  | line :: lines =>
    match Writer.writeAll s line line.length with
    | (taken, .error e) => (Arrival.ofTaken taken, .error e)
    | (taken, .ok s) =>
      match Writer.flush s with
      | .error e => (Arrival.ofTaken taken, .error e)
      | .ok s =>
        let found := found || isDiagnostic (Utf8.decodeLossy line)
        let (arrivals, result) := relay s found failure lines
        (Arrival.ofTaken taken ++ .flush :: arrivals, result)

def scan (s : σ) (reads : List Read) : List Arrival × Except IoError Bool :=
  let (lines, failure) := lines reads
  relay s false failure lines

/-- The bytes that arrived, cut at each flush. -/
def flushed (piece : Bytes) : List Arrival → List Bytes
  | [] => if piece.isEmpty then [] else [piece]
  | .bytes bytes :: arrivals => flushed (piece ++ bytes) arrivals
  | .flush :: arrivals => piece :: flushed [] arrivals

end LintRunner.Relay
