import LintRunner.Decimal.Shortest
import LintRunner.Json.Fault

/-!
# Words, numbers and strings of JSON

Each reader takes what is left of the text and returns what is left behind its
piece. A value that is not asked for is skipped: its strings and numbers are
only followed to their end.
-/

namespace LintRunner.Json

def quote : UInt8 := 0x22
def backslash : UInt8 := 0x5C
def comma : UInt8 := 0x2C
def colon : UInt8 := 0x3A
def minus : UInt8 := 0x2D
def openList : UInt8 := 0x5B
def closeList : UInt8 := 0x5D
def openObject : UInt8 := 0x7B
def closeObject : UInt8 := 0x7D

def isSpace (b : UInt8) : Bool :=
  b == 0x20 || b == 0x0A || b == 0x09 || b == 0x0D

def isDigit (b : UInt8) : Bool :=
  0x30 ≤ b && b ≤ 0x39

def skipSpace (text : Bytes) : Bytes :=
  text.dropWhile isSpace

/-- The rest of `null`, `true` or `false` behind the first letter. -/
def word : Bytes → Bytes → Result Bytes
  | [], text => .ok text
  | _ :: _, [] => here .endInValue []
  | e :: expected, b :: text =>
    if b == e then word expected text else here .expectedIdent text

/-! ## Strings -/

/-- Whether a string is wanted or only skipped. -/
inductive Use
  | keep
  | skip
deriving DecidableEq, Repr

def hexDigit? (b : UInt8) : Option Nat :=
  if isDigit b then some (b.toNat - 0x30)
  else if 0x61 ≤ b && b ≤ 0x66 then some (b.toNat - 0x57)
  else if 0x41 ≤ b && b ≤ 0x46 then some (b.toNat - 0x37)
  else none

def hexNumber? (digits : Bytes) : Option Nat :=
  digits.foldl (fun n? b => do return (← n?) * 16 + (← hexDigit? b)) (some 0)

/-- The unit that four digits spell. -/
def hexUnit : Bytes → Result (Nat × Bytes)
  | a :: b :: c :: d :: text =>
    match hexNumber? [a, b, c, d] with
    | some n => .ok (n, text)
    | none => here .invalidEscape text
  | _ => here .endInString []

def isHighSurrogate (n : Nat) : Bool :=
  0xD800 ≤ n && n ≤ 0xDBFF

def isLowSurrogate (n : Nat) : Bool :=
  0xDC00 ≤ n && n ≤ 0xDFFF

/-- The second of two surrogates, with the escape that it stands in. -/
def lowSurrogate : Bytes → Result Nat
  | [] => here .endInString []
  | b :: text =>
    if b != backslash then here .unfinishedSurrogates text
    else
      match text with
      | [] => here .endInString []
      | u :: text =>
        if u != 0x75 then here .unfinishedSurrogates text
        else do
          let (low, text) ← hexUnit text
          if isLowSurrogate low then return low else here .loneSurrogate text

/-- The character behind `\u`, and how many bytes spell it. -/
def unicodeEscape (text : Bytes) : Result (Bytes × Nat) := do
  let (n, rest) ← hexUnit text
  if isLowSurrogate n then here .loneSurrogate rest
  else if isHighSurrogate n then
    let low ← lowSurrogate rest
    let c := Char.ofNat (0x10000 + (n - 0xD800) * 0x400 + (low - 0xDC00))
    return (Utf8.encode [c], 10)
  else return (Utf8.encode [Char.ofNat n], 4)

/-- The letters that may stand behind a backslash, and what they stand for. -/
def escapes : List (UInt8 × UInt8) :=
  [(quote, quote), (backslash, backslash), (0x2F, 0x2F), (0x62, 8), (0x66, 12),
    (0x6E, 10), (0x72, 13), (0x74, 9)]

/-- What the text behind a backslash stands for, and how many bytes it takes.
A skipped escape may name half a pair of surrogates. -/
def escape (use : Use) : Bytes → Result (Bytes × Nat)
  | [] => here .endInString []
  | b :: text =>
    match escapes.lookup b with
    | some c => .ok ([c], 1)
    | none =>
      if b != 0x75 then here .invalidEscape text
      else
        match use with
        | .keep => (unicodeEscape text).map fun (c, n) => (c, n + 1)
        | .skip => (hexUnit text).map fun _ => ([], 5)

/-- The content of a string behind its opening quote, once `skip` bytes of an
escape are passed, and what is left behind its closing quote. -/
def stringFrom (use : Use) (skip : Nat) : Bytes → Result (Bytes × Bytes)
  | [] => here .endInString []
  | b :: text =>
    match skip with
    | skip + 1 => stringFrom use skip text
    | 0 =>
      if b == quote then .ok ([], text)
      else if b == backslash then
        match escape use text with
        | .error f => .error f
        | .ok (c, n) => (stringFrom use n text).map fun (t, rest) => (c ++ t, rest)
      else if b < 0x20 then
        match use with
        | .keep => here .controlInString text
        | .skip => here .controlInString (b :: text)
      else (stringFrom use 0 text).map fun (t, rest) => (b :: t, rest)

def string (use : Use) (text : Bytes) : Result (Bytes × Bytes) :=
  stringFrom use 0 text

/-! ## Numbers -/

/-- A number as it is spelled. The parts behind the point and behind the `e`
are there only if those are. -/
structure Numeral where
  negative : Bool
  whole : Bytes
  fraction : Option Bytes
  exponent : Option (Bool × Bytes)

def digits (text : Bytes) : Bytes × Bytes :=
  (text.takeWhile isDigit, text.dropWhile isDigit)

/-- The causes of a number that ends too early: a skipped one is just invalid. -/
def earlyEnd : Use → Cause
  | .keep => .endInValue
  | .skip => .invalidNumber

def exponentPart (use : Use) (text : Bytes) : Result (Option (Bool × Bytes) × Bytes) :=
  match text with
  | e :: rest =>
    if e != 0x65 && e != 0x45 then .ok (none, text)
    else
      let (negative, rest) :=
        match rest with
        | s :: behind =>
          if s == minus then (true, behind)
          else if s == 0x2B then (false, behind)
          else (false, rest)
        | [] => (false, rest)
      match rest with
      | [] => here (earlyEnd use) []
      | b :: behind =>
        if isDigit b then .ok (some (negative, (digits rest).1), (digits rest).2)
        else here .invalidNumber behind
  | [] => .ok (none, text)

def fractionPart (use : Use) (text : Bytes) : Result (Option Bytes × Bytes) :=
  match text with
  | p :: rest =>
    if p != 0x2E then .ok (none, text)
    else
      match digits rest with
      | ([], []) => ahead (earlyEnd use) []
      | ([], rest) => ahead .invalidNumber rest
      | (fraction, rest) => .ok (some fraction, rest)
  | [] => .ok (none, text)

/-- A number behind its sign. No number has a further digit behind a leading
zero. -/
def numeral (use : Use) (negative : Bool) (text : Bytes) : Result (Numeral × Bytes) :=
  match text with
  | [] => here (earlyEnd use) []
  | b :: rest =>
    if !isDigit b then here .invalidNumber rest
    else if b == 0x30 && (digits rest).1 != [] then ahead .invalidNumber rest
    else do
      let (whole, rest) := if b == 0x30 then ([b], rest) else digits text
      let (fraction, rest) ← fractionPart use rest
      let (exponent, rest) ← exponentPart use rest
      return (⟨negative, whole, fraction, exponent⟩, rest)

/-- The least number with more than 64 bits. -/
def significandBound : Nat := 0x10000000000000000

/-- The least number with more than 31 bits. -/
def exponentBound : Nat := 0x80000000

/-- The distance of the least signed number of 64 bits from 0. -/
def signedBound : Nat := 0x8000000000000000

/-- As many digits as fit into 64 bits, as a number, and the digits behind the
first one that does not fit, that one included. -/
def significand (n : Nat) : Bytes → Nat × Bytes
  | [] => (n, [])
  | b :: rest =>
    let next := n * 10 + (b.toNat - 0x30)
    if next < significandBound then significand next rest else (n, b :: rest)

/-- The digits of an exponent up to the first one that exceeds 31 bits; `none`
behind it. -/
def boundedExponent (n : Nat) : Bytes → Except Bytes Nat
  | [] => .ok n
  | b :: rest =>
    let next := n * 10 + (b.toNat - 0x30)
    if next < exponentBound then boundedExponent next rest else .error rest

def powerOfTen (n : Nat) : Float :=
  Float.ofScientific 1 false n

/-- The product `x · 10 ^ e`, by steps that stay in the range of powers of ten;
`none` if the result is too large. -/
def scaleFloat (x : Float) (e : Int) : Nat → Option Float
  | 0 => some x
  | steps + 1 =>
    if 0 ≤ e then
      if x == 0 then some x
      else if 308 < e then none
      else
        let y := x * powerOfTen e.toNat
        if y.isInf then none else some y
    else if -308 ≤ e then some (x / powerOfTen (-e).toNat)
    else if x == 0 then some x
    else scaleFloat (x / powerOfTen 308) (e + 308) steps

/-- What a number without integer value is called, or where it leaves the
range: behind all its digits, or where its exponent grew too large. -/
def Numeral.float (n : Numeral) (rest : Bytes) : Result Found :=
  let (whole, cut) := significand 0 n.whole
  let (all, dropped) := significand whole (n.fraction.getD [])
  let places := ((n.fraction.getD []).length - dropped.length : Nat)
  let start : Int := cut.length - places
  let sign := if n.negative then "-" else ""
  let shown (x : Float) : Found := .float (sign ++ Decimal.textOfFloat x)
  let scaled (e : Int) : Result Found :=
    match scaleFloat (Float.ofNat all) e (e.natAbs / 308 + 1) with
    | some x => .ok (shown x)
    | none => here .numberOutOfRange rest
  match n.exponent with
  | none => scaled start
  | some (negative, digits) =>
    match boundedExponent 0 digits with
    | .ok e => scaled (if negative then start - e else start + e)
    | .error behind =>
      if all != 0 && !negative then here .numberOutOfRange (behind ++ rest)
      else .ok (shown 0)

/-- What a number is called. Integers have 64 bits; a negative zero is none. -/
def Numeral.found (n : Numeral) (rest : Bytes) : Result Found :=
  let (value, cut) := significand 0 n.whole
  if n.fraction.isSome || n.exponent.isSome || !cut.isEmpty then n.float rest
  else if !n.negative then .ok (.integer value)
  else if 0 < value && value ≤ signedBound then .ok (.integer (-value))
  else n.float rest

end LintRunner.Json
