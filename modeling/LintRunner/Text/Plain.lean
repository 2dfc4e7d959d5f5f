/-!
# Text without terminal controls

What a user typed is shown again in messages. Control characters and the
sequences that steer a terminal are taken out of it; tabs, line feeds, form
feeds and carriage returns stay. Each sequence is read by the usual states of
a terminal: behind an escape, in a control sequence, or in a control string.
-/

namespace LintRunner.Text

inductive Terminal
  | ground
  | escape
  | escapeIntermediate
  | sequence
  | sequenceIntermediate
  | sequenceIgnored
  | command
  | device
  | deviceData
  | string
deriving DecidableEq

/-- Whether a control character does its work wherever it stands, and is one
of those that only move to another place. -/
def isSpacing (n : Nat) : Bool :=
  n == 9 || n == 10 || n == 12 || n == 13

/-- The state behind a character of an unfinished sequence. -/
def Terminal.next (t : Terminal) (n : Nat) : Terminal :=
  if n == 0x1B then .escape
  else if n == 0x18 || n == 0x1A then .ground
  else if n < 0x20 || n == 0x7F then
    if t == .command && n == 7 then .ground else t
  else
    match t with
    | .ground => .ground
    | .escape =>
      if n < 0x30 then .escapeIntermediate
      else if n == 0x5B then .sequence
      else if n == 0x5D then .command
      else if n == 0x50 then .device
      else if n == 0x58 || n == 0x5E || n == 0x5F then .string
      else .ground
    | .escapeIntermediate => if n < 0x30 then t else .ground
    | .sequence =>
      if n < 0x30 then .sequenceIntermediate else if n < 0x40 then t else .ground
    | .sequenceIntermediate =>
      if n < 0x30 then t else if n < 0x40 then .sequenceIgnored else .ground
    | .sequenceIgnored => if n < 0x40 then t else .ground
    | .device => if n < 0x40 then t else .deviceData
    | .command | .deviceData | .string => t

/-- Whether the states take a spacing control as text. -/
def Terminal.keepsSpacing : Terminal → Bool
  | .command | .device | .deviceData | .string => false
  | _ => true

def plainFrom (t : Terminal) : List Char → List Char
  | [] => []
  | c :: rest =>
    let n := c.toNat
    if 0xA0 ≤ n || (t.keepsSpacing && isSpacing n) ||
        (t == .ground && 0x20 ≤ n && n < 0x7F) then
      c :: plainFrom .ground rest
    else plainFrom (t.next n) rest

def plain (text : String) : String :=
  String.ofList (plainFrom .ground text.toList)

end LintRunner.Text
