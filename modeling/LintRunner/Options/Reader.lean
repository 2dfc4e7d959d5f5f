import LintRunner.Options.Grammar
import LintRunner.Text.Similarity

/-!
# Options from arguments

Arguments are read from left to right. A value is attached to its option, or
is the argument behind it unless that starts with a dash. An option counts
when the next one begins or the arguments end, and it counts only once.
-/

namespace LintRunner

/-- Why a text is no number of jobs. -/
inductive NumberFault
  | empty
  | invalidDigit
  | tooLarge
  | tooSmall
  | outside (n : Int)
deriving DecidableEq, Repr

inductive UsageError
  /-- An argument that is no option, the option meant if one is alike, and the
  options given before. -/
  | unknown (arg : String) (meant : Option Opt) (used : List Opt)
  | missingValue (o : Opt)
  | notAChoice (o : Opt) (value : String)
  | notANumber (o : Opt) (value : String) (why : NumberFault)
  | repeated (o : Opt)
  | unexpectedValue (o : Opt) (value : String) (used : List Opt)
deriving DecidableEq, Repr

/-- What ends the reading of arguments without options. -/
inductive Stop
  | help (long : Bool)
  | usage (error : UsageError)
deriving DecidableEq, Repr

/-! ## Values -/

/-- Signed numbers have 64 bits: this is the distance of the least one from 0. -/
def signedBound : Nat := 0x8000000000000000

/-- The least number with more than 32 bits. -/
def jobsBound : Nat := 0x100000000

/-- The digits of a number with the given sign. -/
def readDigits (negative : Bool) (n : Nat) : List Char → Except NumberFault Int
  | [] => .ok (if negative then -n else n)
  | c :: rest =>
    if !c.isDigit then .error .invalidDigit
    else
      let n := n * 10 + (c.toNat - 48)
      if negative then
        if signedBound < n then .error .tooSmall else readDigits true n rest
      else
        if signedBound ≤ n then .error .tooLarge else readDigits false n rest

def readInteger : List Char → Except NumberFault Int
  | [] => .error .empty
  | ['+'] | ['-'] => .error .invalidDigit
  | '+' :: digits => readDigits false 0 digits
  | '-' :: digits => readDigits true 0 digits
  | digits => readDigits false 0 digits

/-- A number of jobs has 32 bits and no sign. -/
def readJobs (value : String) : Except NumberFault UInt32 := do
  let n ← readInteger value.toList
  if 0 ≤ n && n < jobsBound then return UInt32.ofNat n.toNat
  else throw (.outside n)

def readPath (o : Opt) (value : String) : Except UsageError Path :=
  if value.isEmpty then .error (.missingValue o) else .ok (.ofText value)

/-- The options after one of them was given with this value. -/
def Options.set (options : Options) (o : Opt) (value : String) :
    Except UsageError Options :=
  match o with
  | .buildPath => do return { options with buildPath := some (← readPath o value) }
  | .jobs =>
    match readJobs value with
    | .ok n => .ok { options with jobs := some n }
    | .error why => .error (.notANumber o value why)
  | .exportFixes => .ok { options with exportFixes := some value }
  | .orchestrator => .ok { options with orchestrator := value }
  | .linter => .ok { options with linter := value }
  | .fix => .ok { options with fix := true }
  | .checkOutput => .ok { options with checkOutput := true }
  | .verbosity =>
    if value == Verbosity.debug.name then .ok { options with verbosity := .debug }
    else if value == Verbosity.info.name then .ok { options with verbosity := .info }
    else .error (.notAChoice o value)
  | .repoRoot => do return { options with repoRoot := ← readPath o value }
  | .ignoreFile => .ok { options with ignoreFile := value }
  | .clangVersion => .ok { options with clangVersion := value }
  | .dryRun => .ok { options with dryRun := true }
  | .help => .ok options

/-! ## Arguments -/

/-- The option whose value is still open. -/
inductive Pending
  | nothing
  | awaiting (o : Opt)
  | holding (o : Opt) (value : String)
deriving DecidableEq, Repr

/-- How far the arguments have been read. -/
structure Reading where
  options : Options := {}
  given : List Opt := []
  pending : Pending := .nothing
  /-- Set by the argument `--`, behind which nothing is an option. -/
  optionsEnded : Bool := false
deriving DecidableEq, Repr

namespace Reading

def give (r : Reading) (o : Opt) (value : String) : Except UsageError Reading :=
  if o ∈ r.given then .error (.repeated o)
  else do
    let options ← r.options.set o value
    return { r with options, given := r.given ++ [o], pending := .nothing }

/-- Counts the option whose value is open. -/
def settle (r : Reading) : Except UsageError Reading :=
  match r.pending with
  | .nothing => .ok r
  | .awaiting o => .error (.missingValue o)
  | .holding o value => r.give o value

/-- The options that a message shows as used, once the open one counts. A
second use takes back the first. -/
def used (r : Reading) : List Opt :=
  match r.pending with
  | .holding o _ => if o ∈ r.given then r.given.erase o else r.given ++ [o]
  | _ => r.given

/-- An option with the value attached to it, if there is one. -/
def option (r : Reading) (o : Opt) (attached : Option String) (long : Bool) :
    Except Stop Reading :=
  match o.takesValue, attached with
  | true, some value => ((r.settle.bind (·.give o value)).mapError .usage)
  | true, none => (r.settle.map ({ · with pending := .awaiting o })).mapError .usage
  | false, some value =>
    .error (.usage (.unexpectedValue o value (r.given ++ [o]).eraseDups))
  | false, none =>
    match r.settle with
    | .error e => .error (.usage e)
    | .ok r => if o == .help then .error (.help long) else (r.give o "").mapError .usage

/-- What follows the two dashes. -/
def long (r : Reading) (text : List Char) : Except Stop Reading :=
  let name := String.ofList (text.takeWhile (· != '='))
  let attached :=
    match text.dropWhile (· != '=') with
    | [] => none
    | _ :: value => some (String.ofList value)
  match Opt.ofLong? name with
  | some o => r.option o attached true
  | none =>
    let meant := (Text.mostSimilar? name Opt.longNames).bind Opt.ofLong?
    .error (.usage (.unknown s!"--{name}" meant (r.used ++ meant.toList).eraseDups))

/-- What follows the single dash: a letter, and the value attached to it with
or without `=`. -/
def short (r : Reading) (letter : Char) (rest : List Char) : Except Stop Reading :=
  match Opt.ofShort? letter with
  | some o =>
    if !o.takesValue then r.option o none false
    else
      match rest with
      | [] => r.option o none false
      | '=' :: value | value => r.option o (some (String.ofList value)) false
  | none => .error (.usage (.unknown s!"-{letter}" none []))

def next (r : Reading) (arg : String) : Except Stop Reading :=
  let unknown := .error (.usage (.unknown arg none []))
  if r.optionsEnded then unknown
  else
    match arg.toList with
    | ['-', '-'] => .ok { r with optionsEnded := true }
    | '-' :: '-' :: text => r.long text
    | '-' :: letter :: rest => r.short letter rest
    | _ =>
      match r.pending with
      | .awaiting o => .ok { r with pending := .holding o arg }
      | _ => unknown

def start : Reading := {}

end Reading

/-- The options that the arguments behind the program name spell. -/
def Options.ofArgs (args : List String) : Except Stop Options := do
  let r ← args.foldlM Reading.next Reading.start
  match r.settle with
  | .ok r => return r.options
  | .error e => throw (.usage e)

end LintRunner
