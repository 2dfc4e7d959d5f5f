/-!
# The shortest decimal of a binary number

A number `m · 2 ^ q` with 53 bits is what every real number close enough to it
is rounded to. Of the decimals that close, the one with the fewest digits is
taken, and of those the nearest.
-/

namespace LintRunner.Decimal

/-- A negative exponent counts as 0. -/
def pow (base : Nat) (e : Int) : Nat :=
  Nat.pow base e.toNat

/-- The reals that round to `m · 2 ^ q`, in quarters of `2 ^ q`. The bounds
themselves belong to it if `m` is even. -/
structure Interval where
  low : Nat
  mid : Nat
  high : Nat
  closed : Bool
  exponent : Int

/-- Below a power of two the numbers lie twice as dense, unless they cannot. -/
def intervalOf (m : Nat) (q : Int) : Interval where
  low := if m == pow 2 52 && q > -1074 then 4 * m - 1 else 4 * m - 2
  mid := 4 * m
  high := 4 * m + 2
  closed := m % 2 == 0
  exponent := q - 2

/-- The decimal `digits · 10 ^ exponent`. -/
structure Shown where
  digits : Nat
  exponent : Int

/-- Both `n · 10 ^ k` and `x · 2 ^ e` on one scale of integers. -/
def scaleDecimal (n : Nat) (k e : Int) : Nat :=
  n * pow 10 k * pow 2 (-e)

def scaleBinary (x : Nat) (k e : Int) : Nat :=
  x * pow 2 e * pow 10 (-k)

def Interval.contains (i : Interval) (d : Shown) : Bool :=
  let n := scaleDecimal d.digits d.exponent i.exponent
  let low := scaleBinary i.low d.exponent i.exponent
  let high := scaleBinary i.high d.exponent i.exponent
  if i.closed then low ≤ n && n ≤ high else low < n && n < high

/-- The two decimals on either side of the middle that end at `10 ^ k`, the
nearer one first. Of two equally near ones the even one is first. -/
def Interval.neighbours (i : Interval) (k : Int) : List Shown :=
  let mid := scaleBinary i.mid k i.exponent
  let unit := scaleDecimal 1 k i.exponent
  let below := mid / unit
  let belowFirst :=
    match compare (2 * (mid % unit)) unit with
    | .lt => true
    | .eq => below % 2 == 0
    | .gt => false
  if belowFirst then [⟨below, k⟩, ⟨below + 1, k⟩]
  else [⟨below + 1, k⟩, ⟨below, k⟩]

/-- The exponent of the first digit of `mid · 2 ^ e`. -/
def Interval.firstExponent (i : Interval) : Int :=
  let num := i.mid * pow 2 i.exponent
  let den := pow 2 (-i.exponent)
  if den ≤ num then ((Nat.toDigits 10 (num / den)).length : Int) - 1
  else -((Nat.toDigits 10 ((den - 1) / num)).length : Int)

def shortestFrom (i : Interval) (k : Int) : Nat → Shown
  | 0 => ⟨0, 0⟩
  | tries + 1 =>
    match (i.neighbours k).find? i.contains with
    | some d => d
    | none => shortestFrom i (k - 1) tries

/-- Seventeen digits always suffice. -/
def shortest (m : Nat) (q : Int) : Shown :=
  let i := intervalOf m q
  shortestFrom i i.firstExponent 17

/-- The text of a nonzero decimal. The point is written as long as few zeros
are needed for it; beyond that the exponent is written out. A whole number
keeps one zero behind its point. -/
def Shown.text (d : Shown) : String :=
  let digits := (Nat.toDigits 10 d.digits).reverse.dropWhile (· == '0') |>.reverse
  let all := Nat.toDigits 10 d.digits
  let exponent := d.exponent + (all.length - digits.length : Nat)
  let place := exponent + digits.length
  let zeros (n : Int) := List.replicate n.toNat '0'
  let number :=
    if 0 < place && place ≤ 16 then
      if 0 ≤ exponent then digits ++ zeros exponent ++ ['.', '0']
      else digits.take place.toNat ++ '.' :: digits.drop place.toNat
    else if -5 < place && place ≤ 0 then '0' :: '.' :: zeros (-place) ++ digits
    else
      let sign := if 0 < place then ['+'] else ['-']
      let tail := digits.drop 1
      digits.take 1 ++ (if tail.isEmpty then [] else '.' :: tail) ++
        'e' :: sign ++ Nat.toDigits 10 (place - 1).natAbs
  String.ofList number

/-- The text of a finite number of 64 bits. -/
def textOfFloat (x : Float) : String :=
  let bits := x.toBits.toNat
  let sign := if bits ≥ pow 2 63 then "-" else ""
  let biased : Nat := bits / pow 2 52 % pow 2 11
  let fraction : Nat := bits % pow 2 52
  if biased == 0 && fraction == 0 then sign ++ "0.0"
  else
    let d :=
      if biased == 0 then shortest fraction (-1074)
      else shortest (pow 2 52 + fraction) ((biased : Int) - 1075)
    sign ++ d.text

end LintRunner.Decimal
