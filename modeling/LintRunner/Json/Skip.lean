import LintRunner.Json.Literal

/-!
# Values that are not asked for

A value of any shape is passed over, and has to be JSON all the same. Lists
and objects may be nested to any depth.
-/

namespace LintRunner.Json

def nullRest : Bytes := Bytes.ofText "ull"
def trueRest : Bytes := Bytes.ofText "rue"
def falseRest : Bytes := Bytes.ofText "alse"

/-- What stands behind a colon. -/
def behindColon (text : Bytes) : Result Bytes :=
  match skipSpace text with
  | [] => ahead .endInObject []
  | b :: rest => if b == colon then .ok rest else ahead .expectedColon (b :: rest)

mutual

/-- What is left behind one value. Every call reads at least one byte, so the
length of the text bounds their number. -/
def skipWithin : Nat → Bytes → Result Bytes
  | 0, text => ahead .endInValue text
  | calls + 1, text =>
    match skipSpace text with
    | [] => ahead .endInValue []
    | b :: rest =>
      if b == 0x6E then word nullRest rest
      else if b == 0x74 then word trueRest rest
      else if b == 0x66 then word falseRest rest
      else if b == minus then (numeral .skip true rest).map (·.2)
      else if isDigit b then (numeral .skip false (b :: rest)).map (·.2)
      else if b == quote then (string .skip rest).map (·.2)
      else if b == openList then skipList calls true rest
      else if b == openObject then skipObject calls true rest
      else ahead .expectedValue (b :: rest)

/-- What is left behind the elements of a list and its end. -/
def skipList : Nat → Bool → Bytes → Result Bytes
  | 0, _, text => ahead .endInList text
  | calls + 1, first, text =>
    match skipSpace text with
    | [] => ahead .endInList []
    | b :: rest =>
      if b == closeList then .ok rest
      else if first then skipWithin calls (b :: rest) >>= skipList calls false
      else if b == comma then skipWithin calls rest >>= skipList calls false
      else ahead .expectedListEnd (b :: rest)

/-- What is left behind the members of an object and its end. -/
def skipObject : Nat → Bool → Bytes → Result Bytes
  | 0, _, text => ahead .endInObject text
  | calls + 1, first, text =>
    match skipSpace text with
    | [] => ahead .endInObject []
    | b :: rest =>
      if b == closeObject then .ok rest
      else if first then skipMember calls (b :: rest) >>= skipObject calls false
      else if b == comma then skipMember calls rest >>= skipObject calls false
      else ahead .expectedObjectEnd (b :: rest)

def skipMember : Nat → Bytes → Result Bytes
  | 0, text => ahead .endInObject text
  | calls + 1, text =>
    match skipSpace text with
    | [] => ahead .endInObject []
    | b :: rest =>
      if b == quote then do
        let (_, rest) ← string .skip rest
        skipWithin calls (← behindColon rest)
      else ahead .keyNotAString (b :: rest)

end

def skipValue (text : Bytes) : Result Bytes :=
  skipWithin (4 * text.length + 1) text

end LintRunner.Json
