/-!
# How alike two texts are

The Jaro similarity of two texts: 1 for equal ones, 0 for texts with nothing
in common. A character matches an equal one in the other text that is less
than half the longer text away; a match out of order counts half.
-/

namespace LintRunner.Text

/-- Marks the first free place of `b` between `lo` and `hi` that holds `c`. -/
def matchWithin (c : Char) (lo hi place : Nat) :
    List (Char × Bool) → Option (List (Char × Bool))
  | [] => none
  | (d, taken) :: rest =>
    if lo ≤ place && place < hi && d == c && !taken then some ((d, true) :: rest)
    else (matchWithin c lo hi (place + 1) rest).map ((d, taken) :: ·)

/-- The characters of `a` that have a match in `b`, and `b` with the matched
places marked. -/
def matchAll (range place : Nat) :
    List Char → List (Char × Bool) → List Char × List (Char × Bool)
  | [], b => ([], b)
  | c :: rest, b =>
    match matchWithin c (place - range) (place + range + 1) 0 b with
    | some b =>
      let (matched, b) := matchAll range (place + 1) rest b
      (c :: matched, b)
    | none => matchAll range (place + 1) rest b

def similarity (a b : String) : Float :=
  let a := a.toList
  let b := b.toList
  if a.isEmpty && b.isEmpty then 1
  else
    let range := max a.length b.length / 2 - 1
    let (matched, marked) := matchAll range 0 a (b.map (·, false))
    let others := (marked.filter (·.2)).map (·.1)
    let outOfOrder := ((matched.zip others).filter fun (c, d) => c != d).length / 2
    let count := matched.length
    if count == 0 then 0
    else
      (count.toFloat / a.length.toFloat + count.toFloat / b.length.toFloat +
        (count - outOfOrder).toFloat / count.toFloat) / 3

/-- The candidate most like the text, if any is like it at all; of equals the
last one. -/
def mostSimilar? (text : String) (candidates : List String) : Option String :=
  let like := (candidates.map fun c => (c, similarity text c)).filter (·.2 > 0.7)
  (like.foldl
    (fun best next =>
      match best with
      | some best => if next.2 >= best.2 then some next else some best
      | none => some next)
    (none : Option (String × Float))).map (·.1)

end LintRunner.Text
