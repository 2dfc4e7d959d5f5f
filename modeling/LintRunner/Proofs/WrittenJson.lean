import Mathlib.Data.List.DropRight
import LintRunner.Json.Skip
import LintRunner.Proofs.Utf8

/-!
# Written JSON

The grammar says which bytes write which value, whatever its readers do. Of a number it
keeps no value, and of a string the units of UTF-16 that are written: an escape spells
one of them, so a pair of surrogates is written as two escapes and half a pair may stand
alone. The reader of a string takes it exactly if its units are those of a text, and
gives this text however it is escaped.
-/

namespace LintRunner.Utf16

/-! ## The units of a text -/

def units (c : Char) : List Nat :=
  if c.toNat < 0x10000 then [c.toNat]
  else [0xD800 + (c.toNat - 0x10000) / 0x400, 0xDC00 + (c.toNat - 0x10000) % 0x400]

def encode (text : List Char) : List Nat :=
  text.flatMap units

theorem encode_cons (c : Char) (text : List Char) :
    encode (c :: text) = units c ++ encode text :=
  List.flatMap_cons

theorem no_surrogate (c : Char) :
    c.toNat < 0xD800 ∨ 0xDFFF < c.toNat ∧ c.toNat < 0x110000 :=
  c.valid

theorem units_of_lt {c : Char} (h : c.toNat < 0x10000) : units c = [c.toNat] :=
  if_pos h

theorem units_of_ge {c : Char} (h : 0x10000 ≤ c.toNat) : units c =
    [0xD800 + (c.toNat - 0x10000) / 0x400, 0xDC00 + (c.toNat - 0x10000) % 0x400] :=
  if_neg (Nat.not_lt.mpr h)

/-- No character begins with the second unit of a pair. -/
theorem head_units (c : Char) :
    ∃ n more, units c = n :: more ∧ (n < 0xDC00 ∨ 0xDFFF < n) := by
  have hc := no_surrogate c
  rcases Nat.lt_or_ge c.toNat 0x10000 with h | h
  · exact ⟨_, _, units_of_lt h, by omega⟩
  · exact ⟨_, _, units_of_ge h, by omega⟩

/-- The first character of a text can be told from its units. -/
theorem units_append_inj {c d : Char} {a b : List Nat} (h : units c ++ a = units d ++ b) :
    c = d ∧ a = b := by
  have hc := no_surrogate c
  have hd := no_surrogate d
  rcases Nat.lt_or_ge c.toNat 0x10000 with hclt | hcge <;>
    rcases Nat.lt_or_ge d.toNat 0x10000 with hdlt | hdge
  · rw [units_of_lt hclt, units_of_lt hdlt] at h
    obtain ⟨hn, rfl⟩ := List.cons.inj h
    exact ⟨Char.toNat_inj.mp hn, rfl⟩
  · rw [units_of_lt hclt, units_of_ge hdge] at h
    have hn := (List.cons.inj h).1
    omega
  · rw [units_of_ge hcge, units_of_lt hdlt] at h
    have hn := (List.cons.inj h).1
    omega
  · rw [units_of_ge hcge, units_of_ge hdge] at h
    obtain ⟨hhigh, htail⟩ := List.cons.inj h
    obtain ⟨hlow, rfl⟩ := List.cons.inj htail
    exact ⟨Char.toNat_inj.mp (by omega), rfl⟩

theorem encode_injective {a b : List Char} (h : encode a = encode b) : a = b := by
  induction a generalizing b with
  | nil =>
      cases b with
      | nil => rfl
      | cons d b =>
          obtain ⟨n, more, hunits, -⟩ := head_units d
          rw [encode_cons, hunits] at h
          cases h
  | cons c a ih =>
      cases b with
      | nil =>
          obtain ⟨n, more, hunits, -⟩ := head_units c
          rw [encode_cons, hunits] at h
          cases h
      | cons d b =>
          rw [encode_cons, encode_cons] at h
          obtain ⟨rfl, htail⟩ := units_append_inj h
          rw [ih htail]

end LintRunner.Utf16

namespace LintRunner.Json

/-! ## The grammar -/

/-- The units of a Unicode text. -/
def unitsOf (text : String) : List Nat :=
  Utf16.encode text.toList

theorem unitsOf_injective {x y : String} (h : unitsOf x = unitsOf y) : x = y :=
  String.toList_inj.mp (Utf16.encode_injective h)

/-- A value as far as its text tells: a string by its units. -/
inductive Value
  | null
  | boolean (value : Bool)
  | number
  | string (units : List Nat)
  | list (elements : List Value)
  | object (members : List (List Nat × Value))

def Blank (text : Bytes) : Prop :=
  ∀ b ∈ text, b ∈ [0x20, 0x09, 0x0A, 0x0D]

def Digits (text : Bytes) : Prop :=
  text ≠ [] ∧ ∀ b ∈ text, 0x30 ≤ b.toNat ∧ b.toNat ≤ 0x39

/-- The digit stands for `n` in base 16; a letter may have either case. -/
def HexDigit (b : UInt8) (n : Nat) : Prop :=
  n < 10 ∧ b.toNat = 0x30 + n ∨
    10 ≤ n ∧ n < 16 ∧ (b.toNat = 0x41 + (n - 10) ∨ b.toNat = 0x61 + (n - 10))

instance (b : UInt8) (n : Nat) : Decidable (HexDigit b n) :=
  inferInstanceAs (Decidable (_ ∨ _))

/-- Four digits and the unit that they spell. -/
inductive FourDigits : Nat → Bytes → Prop
  | mk {a b c d : UInt8} {i j k l : Nat} (ha : HexDigit a i) (hb : HexDigit b j)
      (hc : HexDigit c k) (hd : HexDigit d l) :
      FourDigits (((i * 16 + j) * 16 + k) * 16 + l) [a, b, c, d]

/-- The letters of the escapes `\"`, `\\`, `\/`, `\b`, `\f`, `\n`, `\r` and `\t`. -/
def shortEscapes : List (UInt8 × Char) :=
  [(0x22, '"'), (0x5C, '\\'), (0x2F, '/'), (0x62, '\x08'), (0x66, '\x0C'), (0x6E, '\n'),
    (0x72, '\r'), (0x74, '\t')]

/-- A character as it stands or behind a backslash, or a single unit as `\u` and four
digits. -/
inductive Piece : List Nat → Bytes → Prop
  | plain {c : Char} (hcontrol : 0x20 ≤ c.toNat) (hquote : c ≠ '"') (hbackslash : c ≠ '\\') :
      Piece (Utf16.units c) (Utf8.encode [c])
  | short {letter : UInt8} {c : Char} (h : (letter, c) ∈ shortEscapes) :
      Piece (Utf16.units c) [0x5C, letter]
  | unit {n : Nat} {digits : Bytes} (h : FourDigits n digits) :
      Piece [n] (0x5C :: 0x75 :: digits)

/-- What stands between the quotes of a string. -/
inductive Content : List Nat → Bytes → Prop
  | nil : Content [] []
  | cons {first units : List Nat} {a text : Bytes} (hfirst : Piece first a)
      (hrest : Content units text) : Content (first ++ units) (a ++ text)

/-- A text without quotes, backslashes and control characters may stand as it is. -/
theorem Content.ofText {text : String}
    (h : ∀ c ∈ text.toList, 0x20 ≤ c.toNat ∧ c ≠ '"' ∧ c ≠ '\\') :
    Content (unitsOf text) (Bytes.ofText text) := by
  rw [unitsOf, Bytes.ofText]
  generalize text.toList = chars at h
  induction chars with
  | nil => exact .nil
  | cons c chars ih =>
      obtain ⟨hc, hchars⟩ := List.forall_mem_cons.mp h
      rw [Utf16.encode_cons, Utf8.encode_cons]
      exact .cons (.plain hc.1 hc.2.1 hc.2.2) (ih hchars)

/-- The point and the digits behind it, if there is a point. -/
inductive Fraction : Bytes → Prop
  | absent : Fraction []
  | present {digits : Bytes} (h : Digits digits) : Fraction (0x2E :: digits)

inductive Exponent : Bytes → Prop
  | absent : Exponent []
  | present {e : UInt8} {sign digits : Bytes} (he : e = 0x65 ∨ e = 0x45)
      (hsign : sign ∈ [[], [0x2B], [0x2D]]) (h : Digits digits) :
      Exponent (e :: (sign ++ digits))

/-- The digits before the point: no further one stands behind a leading zero. -/
inductive Whole : Bytes → Prop
  | zero : Whole [0x30]
  | digits {text : Bytes} (h : Digits text) (hzero : text.head? ≠ some 0x30) : Whole text

/-- A part of a text: a value by itself or with blanks around it, or what stands between
the brackets of a list or an object that is not empty. -/
inductive Part
  | value (v : Value)
  | element (v : Value)
  | elements (vs : List Value)
  | member (m : List Nat × Value)
  | members (ms : List (List Nat × Value))

/-- The bytes that write a part of a text. A list or an object is written with its pieces,
or with blanks alone if there are none; a comma stands only between two pieces. -/
inductive Written : Part → Bytes → Prop
  | null : Written (.value .null) (Bytes.ofText "null")
  | true : Written (.value (.boolean true)) (Bytes.ofText "true")
  | false : Written (.value (.boolean false)) (Bytes.ofText "false")
  | number {sign whole fraction exponent : Bytes} (hsign : sign ∈ [[], [0x2D]])
      (hwhole : Whole whole) (hfraction : Fraction fraction) (hexponent : Exponent exponent) :
      Written (.value .number) (sign ++ (whole ++ (fraction ++ exponent)))
  | string {units : List Nat} {content : Bytes} (h : Content units content) :
      Written (.value (.string units)) (0x22 :: (content ++ [0x22]))
  | emptyList {gap : Bytes} (h : Blank gap) :
      Written (.value (.list [])) (0x5B :: (gap ++ [0x5D]))
  | list {vs : List Value} {text : Bytes} (h : Written (.elements vs) text) :
      Written (.value (.list vs)) (0x5B :: (text ++ [0x5D]))
  | emptyObject {gap : Bytes} (h : Blank gap) :
      Written (.value (.object [])) (0x7B :: (gap ++ [0x7D]))
  | object {ms : List (List Nat × Value)} {text : Bytes} (h : Written (.members ms) text) :
      Written (.value (.object ms)) (0x7B :: (text ++ [0x7D]))
  | element {v : Value} {before text behind : Bytes} (hbefore : Blank before)
      (h : Written (.value v) text) (hbehind : Blank behind) :
      Written (.element v) (before ++ (text ++ behind))
  | last {v : Value} {text : Bytes} (h : Written (.element v) text) :
      Written (.elements [v]) text
  | next {v : Value} {vs : List Value} {text more : Bytes} (h : Written (.element v) text)
      (hmore : Written (.elements vs) more) :
      Written (.elements (v :: vs)) (text ++ 0x2C :: more)
  | member {name : List Nat} {v : Value} {before content behind text : Bytes}
      (hbefore : Blank before) (hname : Content name content) (hbehind : Blank behind)
      (h : Written (.element v) text) :
      Written (.member (name, v)) (before ++ 0x22 :: (content ++ 0x22 :: (behind ++ 0x3A :: text)))
  | lastMember {m : List Nat × Value} {text : Bytes} (h : Written (.member m) text) :
      Written (.members [m]) text
  | nextMember {m : List Nat × Value} {ms : List (List Nat × Value)} {text more : Bytes}
      (h : Written (.member m) text) (hmore : Written (.members ms) more) :
      Written (.members (m :: ms)) (text ++ 0x2C :: more)

/-! ## Blanks -/

theorem isSpace_iff {b : UInt8} :
    isSpace b = true ↔ b ∈ [(0x20 : UInt8), 0x09, 0x0A, 0x0D] := by
  simp only [isSpace, Bool.or_eq_true, beq_iff_eq, List.mem_cons, List.not_mem_nil, or_false]
  tauto

theorem skipSpace_cons {b : UInt8} (h : isSpace b = false) (rest : Bytes) :
    skipSpace (b :: rest) = b :: rest :=
  List.dropWhile_cons_of_neg (by rw [h]; exact Bool.false_ne_true)

theorem skipSpace_append {gap : Bytes} (h : Blank gap) (rest : Bytes) :
    skipSpace (gap ++ rest) = skipSpace rest :=
  List.dropWhile_append_of_pos fun b hb => isSpace_iff.mpr (h b hb)

@[simp]
theorem skipSpace_skipSpace (text : Bytes) : skipSpace (skipSpace text) = skipSpace text :=
  List.dropWhile_idempotent isSpace text

/-! ## Strings -/

theorem isDigit_iff {b : UInt8} : isDigit b = true ↔ 0x30 ≤ b.toNat ∧ b.toNat ≤ 0x39 := by
  rw [isDigit, Bool.and_eq_true, decide_eq_true_eq, decide_eq_true_eq, UInt8.le_iff_toNat_le,
    UInt8.le_iff_toNat_le]
  rfl

theorem hexDigit?_of_hexDigit {b : UInt8} {n : Nat} (h : HexDigit b n) :
    hexDigit? b = some n := by
  have hsome : ∀ m, m = n → some m = some n := fun m hm => congrArg some hm
  simp only [hexDigit?, isDigit_iff, Bool.and_eq_true, decide_eq_true_eq,
    UInt8.le_iff_toNat_le, UInt8.reduceToNat]
  rcases h with ⟨hn, hb⟩ | ⟨hlo, hhi, hb | hb⟩
  · rw [if_pos (by omega)]
    exact hsome _ (by omega)
  · rw [if_neg (by omega), if_neg (by omega), if_pos (by omega)]
    exact hsome _ (by omega)
  · rw [if_neg (by omega), if_pos (by omega)]
    exact hsome _ (by omega)

theorem FourDigits.length_eq {n : Nat} {digits : Bytes} (h : FourDigits n digits) :
    digits.length = 4 := by
  cases h
  rfl

theorem FourDigits.lt {n : Nat} {digits : Bytes} (h : FourDigits n digits) : n < 0x10000 := by
  have hdigit : ∀ {b : UInt8} {n : Nat}, HexDigit b n → n < 16 := by
    rintro b n (⟨hn, -⟩ | ⟨-, hn, -⟩) <;> omega
  obtain ⟨ha, hb, hc, hd⟩ := h
  have := hdigit ha
  have := hdigit hb
  have := hdigit hc
  have := hdigit hd
  omega

theorem hexUnit_of_fourDigits {n : Nat} {digits : Bytes} (h : FourDigits n digits)
    (rest : Bytes) : hexUnit (digits ++ rest) = .ok (n, rest) := by
  obtain ⟨ha, hb, hc, hd⟩ := h
  simp [hexUnit, hexNumber?, hexDigit?_of_hexDigit ha, hexDigit?_of_hexDigit hb,
    hexDigit?_of_hexDigit hc, hexDigit?_of_hexDigit hd]

/-- The reader passes over the bytes and gives `content` for them. -/
def Passes (use : Use) (a content : Bytes) : Prop :=
  ∀ rest, stringFrom use 0 (a ++ rest) =
    (stringFrom use 0 rest).map fun (text, left) => (content ++ text, left)

theorem stringFrom_skip (use : Use) (a rest : Bytes) :
    stringFrom use a.length (a ++ rest) = stringFrom use 0 rest := by
  induction a with
  | nil => rfl
  | cons b a ih => exact ih

theorem stringFrom_quote (use : Use) (text : Bytes) :
    stringFrom use 0 (quote :: text) = .ok ([], text) := by
  cases use <;> rfl

theorem stringFrom_backslash (use : Use) (text : Bytes) :
    stringFrom use 0 (backslash :: text) =
      match escape use text with
      | .error f => .error f
      | .ok (c, n) => (stringFrom use n text).map fun (t, rest) => (c ++ t, rest) := by
  cases use <;> rfl

theorem stringFrom_plain (use : Use) {b : UInt8} (hquote : b ≠ quote)
    (hbackslash : b ≠ backslash) (hcontrol : 0x20 ≤ b.toNat) (text : Bytes) :
    stringFrom use 0 (b :: text) =
      (stringFrom use 0 text).map fun (t, rest) => (b :: t, rest) := by
  have hplain : ¬ b < 0x20 := by
    rw [UInt8.lt_iff_toNat_lt]
    exact Nat.not_lt.mpr hcontrol
  cases use <;>
    rw [stringFrom, if_neg (by simpa using hquote), if_neg (by simpa using hbackslash),
      if_neg hplain]

theorem passes_nil (use : Use) : Passes use [] [] := by
  intro rest
  cases h : stringFrom use 0 rest <;> simp [h, Except.map]

theorem Passes.append {use : Use} {a b s t : Bytes} (ha : Passes use a s)
    (hb : Passes use b t) : Passes use (a ++ b) (s ++ t) := by
  intro rest
  rw [List.append_assoc, ha, hb]
  cases stringFrom use 0 rest <;> simp [Except.map]

theorem passes_cons {use : Use} {b : UInt8} {a content : Bytes} (hquote : b ≠ quote)
    (hbackslash : b ≠ backslash) (hcontrol : 0x20 ≤ b.toNat) (h : Passes use a content) :
    Passes use (b :: a) (b :: content) := by
  intro rest
  rw [List.cons_append, stringFrom_plain use hquote hbackslash hcontrol, h rest]
  cases stringFrom use 0 rest <;> rfl

theorem passes_escape {use : Use} {a content : Bytes}
    (h : ∀ rest, escape use (a ++ rest) = .ok (content, a.length)) :
    Passes use (backslash :: a) content := by
  intro rest
  rw [List.cons_append, stringFrom_backslash, h rest]
  show (stringFrom use a.length (a ++ rest)).map _ = _
  rw [stringFrom_skip]

theorem eq_ofNat_of_mem_encode {c : Char} {b : UInt8} (hb : b ∈ Utf8.encode [c])
    (hlt : b.toNat < 0x80) : c = Char.ofNat b.toNat := by
  obtain ⟨a, rest, hcut⟩ := List.append_of_mem hb
  have hread := Utf8.decode_encode [c]
  rw [hcut, Utf8.decode_append_of_lt hlt] at hread
  have hmem : some (Char.ofNat b.toNat) ∈ List.map some [c] := by
    rw [← hread]
    exact List.mem_append_right _ List.mem_cons_self
  exact (Option.some.inj (List.mem_singleton.mp hmem)).symm

theorem passes_plain (use : Use) {c : Char} (hcontrol : 0x20 ≤ c.toNat) (hquote : c ≠ '"')
    (hbackslash : c ≠ '\\') : Passes use (Utf8.encode [c]) (Utf8.encode [c]) := by
  have hall : ∀ b ∈ Utf8.encode [c], b ≠ quote ∧ b ≠ backslash ∧ 0x20 ≤ b.toNat := by
    intro b hb
    rcases Nat.lt_or_ge b.toNat 0x80 with hlt | hge
    · obtain rfl := eq_ofNat_of_mem_encode hb hlt
      have hnumber := Utf8.toNat_ofNat_of_isValidChar
        (Utf8.isValidChar_of_lt_surrogates (by omega : b.toNat < 0xD800))
      refine ⟨?_, ?_, ?_⟩
      · rintro rfl
        exact hquote rfl
      · rintro rfl
        exact hbackslash rfl
      · exact hcontrol.trans_eq hnumber
    · refine ⟨?_, ?_, by omega⟩ <;>
        · rintro rfl
          exact absurd hge (by decide)
  generalize Utf8.encode [c] = a at hall
  induction a with
  | nil => exact passes_nil use
  | cons b a ih =>
      obtain ⟨hb, ha⟩ := List.forall_mem_cons.mp hall
      exact passes_cons hb.1 hb.2.1 hb.2.2 (ih ha)

theorem passes_short (use : Use) {letter : UInt8} {c : Char} (h : (letter, c) ∈ shortEscapes) :
    Passes use [backslash, letter] (Utf8.encode [c]) := by
  have hlookup : ∀ e ∈ shortEscapes,
      (escapes.lookup e.1).map (fun b => [b]) = some (Utf8.encode [e.2]) := by decide
  obtain ⟨b, hb, hc⟩ := Option.map_eq_some_iff.mp (hlookup _ h)
  refine passes_escape (a := [letter]) fun rest => ?_
  have hread : escape use (letter :: rest) = .ok ([b], 1) := by
    cases use <;> rw [escape, hb]
  rw [List.singleton_append, hread, hc]
  rfl

theorem escape_unit (use : Use) (text : Bytes) : escape use (0x75 :: text) =
    match use with
    | .keep => (unicodeEscape text).map fun (c, n) => (c, n + 1)
    | .skip => (hexUnit text).map fun _ => ([], 5) := by
  have hnone : escapes.lookup 0x75 = none := by decide
  cases use <;> rw [escape, hnone] <;> rfl

theorem passes_unit_skip {n : Nat} {digits : Bytes} (h : FourDigits n digits) :
    Passes .skip (backslash :: 0x75 :: digits) [] := by
  refine passes_escape fun rest => ?_
  rw [List.cons_append, escape_unit]
  simp only [hexUnit_of_fourDigits h]
  rw [List.length_cons, h.length_eq]
  rfl

theorem unicodeEscape_of_fourDigits {n : Nat} {digits : Bytes} (h : FourDigits n digits)
    (rest : Bytes) : unicodeEscape (digits ++ rest) =
      if isLowSurrogate n then here .loneSurrogate rest
      else if isHighSurrogate n then do
        let low ← lowSurrogate rest
        let c := Char.ofNat (0x10000 + (n - 0xD800) * 0x400 + (low - 0xDC00))
        return (Utf8.encode [c], 10)
      else return (Utf8.encode [Char.ofNat n], 4) := by
  rw [unicodeEscape, hexUnit_of_fourDigits h]
  rfl

theorem isLowSurrogate_iff {n : Nat} : isLowSurrogate n = true ↔ 0xDC00 ≤ n ∧ n ≤ 0xDFFF := by
  rw [isLowSurrogate, Bool.and_eq_true, decide_eq_true_eq, decide_eq_true_eq]

theorem isHighSurrogate_iff {n : Nat} :
    isHighSurrogate n = true ↔ 0xD800 ≤ n ∧ n ≤ 0xDBFF := by
  rw [isHighSurrogate, Bool.and_eq_true, decide_eq_true_eq, decide_eq_true_eq]

theorem passes_unit {n : Nat} {digits : Bytes} (h : FourDigits n digits)
    (hn : n < 0xD800 ∨ 0xDFFF < n) :
    Passes .keep (backslash :: 0x75 :: digits) (Utf8.encode [Char.ofNat n]) := by
  refine passes_escape fun rest => ?_
  rw [List.cons_append, escape_unit]
  simp only [unicodeEscape_of_fourDigits h]
  rw [if_neg (by rw [isLowSurrogate_iff]; omega), if_neg (by rw [isHighSurrogate_iff]; omega),
    List.length_cons, h.length_eq]
  rfl

theorem lowSurrogate_of_ne {b : UInt8} (h : b ≠ backslash) (text : Bytes) :
    lowSurrogate (b :: text) = here .unfinishedSurrogates text := by
  have hb : (b != backslash) = true := bne_iff_ne.mpr h
  cases text <;> rw [lowSurrogate, if_pos hb]

theorem lowSurrogate_of_fourDigits {n : Nat} {digits : Bytes} (h : FourDigits n digits)
    (rest : Bytes) : lowSurrogate (backslash :: 0x75 :: (digits ++ rest)) =
      if isLowSurrogate n then .ok n else here .loneSurrogate rest := by
  rw [lowSurrogate, if_neg (by decide)]
  simp only
  rw [if_neg (by decide), hexUnit_of_fourDigits h]
  rfl

theorem units_ofNat {n : Nat} (hn : n < 0xD800 ∨ 0xDFFF < n) (hlt : n < 0x10000) :
    Utf16.units (Char.ofNat n) = [n] := by
  have hvalid : n.isValidChar := hn.imp id fun h => ⟨h, by omega⟩
  have hnumber : (Char.ofNat n).toNat = n := Utf8.toNat_ofNat_of_isValidChar hvalid
  rw [Utf16.units_of_lt (by omega), hnumber]

/-- The character of a pair of surrogates. -/
def ofPair (high low : Nat) : Char :=
  Char.ofNat (0x10000 + (high - 0xD800) * 0x400 + (low - 0xDC00))

theorem units_ofPair {high low : Nat} (hhigh : isHighSurrogate high = true)
    (hlow : isLowSurrogate low = true) : Utf16.units (ofPair high low) = [high, low] := by
  rw [isHighSurrogate_iff] at hhigh
  rw [isLowSurrogate_iff] at hlow
  have hnumber : (ofPair high low).toNat =
      0x10000 + (high - 0xD800) * 0x400 + (low - 0xDC00) :=
    Utf8.toNat_ofNat_of_isValidChar
      (Utf8.isValidChar_of_gt_surrogates (by omega) (by omega))
  have hfirst : 0xD800 + ((ofPair high low).toNat - 0x10000) / 0x400 = high := by omega
  have hsecond : 0xDC00 + ((ofPair high low).toNat - 0x10000) % 0x400 = low := by omega
  rw [Utf16.units_of_ge (by omega), hfirst, hsecond]

theorem passes_pair {high low : Nat} {a b : Bytes} (ha : FourDigits high a)
    (hb : FourDigits low b) (hhigh : isHighSurrogate high = true)
    (hlow : isLowSurrogate low = true) :
    Passes .keep (backslash :: 0x75 :: a ++ backslash :: 0x75 :: b)
      (Utf8.encode [ofPair high low]) := by
  have hsingle : ¬ isLowSurrogate high = true := by
    rw [isHighSurrogate_iff] at hhigh
    rw [isLowSurrogate_iff]
    omega
  refine passes_escape (a := 0x75 :: a ++ backslash :: 0x75 :: b) fun rest => ?_
  rw [List.cons_append, List.cons_append, escape_unit, List.append_assoc]
  simp only [unicodeEscape_of_fourDigits ha]
  rw [if_neg hsingle, if_pos hhigh, List.cons_append, List.cons_append,
    lowSurrogate_of_fourDigits hb, if_pos hlow]
  simp [Except.map, ha.length_eq, hb.length_eq, ofPair]

/-- The second unit of a pair is found only where it is escaped. -/
theorem Content.of_lowSurrogate {units : List Nat} {a rest : Bytes} {low : Nat}
    (h : Content units a) (hlow : lowSurrogate (a ++ quote :: rest) = .ok low) :
    isLowSurrogate low = true ∧ ∃ more, units = low :: more := by
  cases h with
  | nil => cases hlow
  | @cons first more a b hfirst hrest =>
      cases hfirst with
      | @plain c hcontrol hquote hbackslash =>
          exfalso
          obtain ⟨x, xs, hbytes⟩ := List.exists_cons_of_ne_nil (Utf8.encode_ne_nil c [])
          have hx : x ≠ backslash := by
            rintro rfl
            refine hbackslash (eq_ofNat_of_mem_encode (b := backslash) ?_ (by decide))
            rw [hbytes]
            exact List.mem_cons_self
          rw [hbytes, List.cons_append, List.cons_append, lowSurrogate_of_ne hx] at hlow
          cases hlow
      | @short letter c h =>
          exfalso
          have hletter : ∀ e ∈ shortEscapes, (e.1 != 0x75) = true := by decide
          simp only [List.cons_append, List.nil_append] at hlow
          rw [lowSurrogate, if_neg (by decide)] at hlow
          simp only at hlow
          rw [if_pos (hletter _ h)] at hlow
          cases hlow
      | @unit n digits h =>
          have hread := lowSurrogate_of_fourDigits h (b ++ quote :: rest)
          rw [List.append_assoc, List.cons_append, List.cons_append] at hlow
          rw [show (0x5C : UInt8) = backslash from rfl, hread] at hlow
          split at hlow
          · next hn =>
              obtain rfl := Except.ok.inj hlow
              exact ⟨hn, more, rfl⟩
          · cases hlow

theorem Passes.ok {use : Use} {a content rest text left : Bytes} (h : Passes use a content)
    (hread : stringFrom use 0 (a ++ rest) = .ok (text, left)) :
    ∃ more, stringFrom use 0 rest = .ok (more, left) ∧ text = content ++ more := by
  rw [h rest] at hread
  cases hrest : stringFrom use 0 rest with
  | error fault =>
      rw [hrest] at hread
      cases hread
  | ok read =>
      obtain ⟨more, behind⟩ := read
      rw [hrest] at hread
      obtain ⟨rfl, rfl⟩ := Prod.mk.inj (Except.ok.inj hread)
      exact ⟨more, rfl, rfl⟩

/-- A piece writes a character, for which the reader gives its bytes, or a single unit. -/
theorem Piece.reads {first : List Nat} {a : Bytes} (h : Piece first a) :
    (∃ c, first = Utf16.units c ∧ ∀ use, Passes use a (Utf8.encode [c])) ∨
      ∃ n digits, FourDigits n digits ∧ first = [n] ∧ a = backslash :: 0x75 :: digits := by
  cases h with
  | @plain c hcontrol hquote hbackslash =>
      exact .inl ⟨c, rfl, fun use => passes_plain use hcontrol hquote hbackslash⟩
  | @short letter c h => exact .inl ⟨c, rfl, fun use => passes_short use h⟩
  | @unit n digits h => exact .inr ⟨n, digits, h, rfl, rfl⟩

theorem Piece.ne_nil {first : List Nat} {a : Bytes} (h : Piece first a) : a ≠ [] := by
  cases h with
  | plain => exact Utf8.encode_ne_nil _ []
  | short | unit => exact List.cons_ne_nil _ _

theorem Content.units_eq_nil {units : List Nat} (h : Content units []) : units = [] := by
  generalize ha : ([] : Bytes) = a at h
  cases h with
  | nil => rfl
  | cons hfirst _ => exact absurd (List.append_eq_nil_iff.mp ha.symm).1 hfirst.ne_nil

theorem Piece.units_ne_nil {first : List Nat} {a : Bytes} (h : Piece first a) : first ≠ [] := by
  rcases h.reads with ⟨c, rfl, -⟩ | ⟨n, digits, -, rfl, -⟩
  · obtain ⟨n, more, hhead, -⟩ := Utf16.head_units c
    rw [hhead]
    exact List.cons_ne_nil _ _
  · exact List.cons_ne_nil _ _

/-- A string that is passed over is left behind its closing quote, whatever its units. -/
theorem string_skip {units : List Nat} {a : Bytes} (h : Content units a) (rest : Bytes) :
    ∃ text, string .skip (a ++ quote :: rest) = .ok (text, rest) := by
  have hread : ∃ text, Passes .skip a text := by
    induction h with
    | nil => exact ⟨[], passes_nil .skip⟩
    | @cons first units a b hfirst _ ih =>
        obtain ⟨text, htext⟩ := ih
        rcases hfirst.reads with ⟨c, -, hc⟩ | ⟨n, digits, hdigits, -, rfl⟩
        · exact ⟨_, (hc .skip).append htext⟩
        · exact ⟨_, (passes_unit_skip hdigits).append htext⟩
  obtain ⟨text, htext⟩ := hread
  refine ⟨text, ?_⟩
  rw [string, htext, stringFrom_quote]
  simp [Except.map]

/-- The second unit of a pair is never written but by its escape. -/
theorem Content.of_low {units more : List Nat} {low : Nat} {a : Bytes} (h : Content units a)
    (hunits : units = low :: more) (hlow : isLowSurrogate low = true) :
    ∃ digits b, FourDigits low digits ∧ Content more b ∧
      a = backslash :: 0x75 :: digits ++ b := by
  cases h with
  | nil => cases hunits
  | @cons first tail a b hfirst hrest =>
      rcases hfirst.reads with ⟨c, rfl, -⟩ | ⟨n, digits, hdigits, rfl, rfl⟩
      · obtain ⟨n, rest, hhead, hn⟩ := Utf16.head_units c
        rw [hhead] at hunits
        obtain ⟨rfl, -⟩ := List.cons.inj hunits
        rw [isLowSurrogate_iff] at hlow
        omega
      · obtain ⟨rfl, rfl⟩ := List.cons.inj hunits
        exact ⟨digits, b, hdigits, hrest, rfl⟩

/-- A content begins with what writes its first character, however that is escaped. -/
theorem Content.first {units more : List Nat} {c : Char} {a : Bytes} (h : Content units a)
    (hunits : units = Utf16.units c ++ more) :
    ∃ first b, a = first ++ b ∧ Passes .keep first (Utf8.encode [c]) ∧ Content more b := by
  obtain ⟨n, tail, hhead, -⟩ := Utf16.head_units c
  cases h with
  | nil =>
      rw [hhead] at hunits
      cases hunits
  | @cons first rest a b hfirst hrest =>
      rcases hfirst.reads with ⟨d, rfl, hd⟩ | ⟨m, digits, hdigits, rfl, rfl⟩
      · obtain ⟨rfl, rfl⟩ := Utf16.units_append_inj hunits
        exact ⟨a, b, rfl, hd .keep, hrest⟩
      have hvalid := Utf16.no_surrogate c
      rcases Nat.lt_or_ge c.toNat 0x10000 with hlt | hge
      · rw [Utf16.units_of_lt hlt] at hunits
        obtain ⟨rfl, rfl⟩ := List.cons.inj hunits
        have hfront := passes_unit hdigits (by omega)
        rw [Char.ofNat_toNat] at hfront
        exact ⟨_, b, rfl, hfront, hrest⟩
      · obtain ⟨low, hlowUnit⟩ : ∃ low, low = 0xDC00 + (c.toNat - 0x10000) % 0x400 := ⟨_, rfl⟩
        have hpair := Utf16.units_of_ge hge
        rw [hpair, ← hlowUnit] at hunits
        obtain ⟨hm, hmore⟩ := List.cons.inj hunits
        have hhigh : isHighSurrogate m = true := by
          rw [isHighSurrogate_iff]
          omega
        have hlow : isLowSurrogate low = true := by
          rw [isLowSurrogate_iff]
          omega
        obtain ⟨digits', b', hdigits', hrest', rfl⟩ := hrest.of_low hmore hlow
        -- the pair can only be the one that the units of `c` are
        have hc : Utf16.units (ofPair m low) ++ [] = Utf16.units c ++ [] := by
          rw [units_ofPair hhigh hlow, hpair, hm, hlowUnit]
        rw [← (Utf16.units_append_inj hc).1]
        exact ⟨_, b', (List.append_assoc ..).symm, passes_pair hdigits hdigits' hhigh hlow,
          hrest'⟩

/-- Whatever escapes write the units of a text, the reader gives the text. -/
theorem passes_text {text : List Char} {units : List Nat} {a : Bytes} (h : Content units a)
    (hunits : units = Utf16.encode text) : Passes .keep a (Utf8.encode text) := by
  induction text generalizing units a with
  | nil =>
      cases h with
      | nil => exact passes_nil .keep
      | @cons first more a b hfirst _ =>
          obtain ⟨rfl, -⟩ := List.append_eq_nil_iff.mp hunits
          exact absurd rfl hfirst.units_ne_nil
  | cons c text ih =>
      rw [Utf16.encode_cons] at hunits
      rw [Utf8.encode_cons]
      obtain ⟨first, b, rfl, hfirst, hrest⟩ := h.first hunits
      exact hfirst.append (ih hrest rfl)

/-- A first unit of a pair is read only before the escape of a second one. -/
theorem lowSurrogate_of_keep {n : Nat} {digits more text left : Bytes} (h : FourDigits n digits)
    (hread : stringFrom .keep 0 (backslash :: 0x75 :: (digits ++ more)) = .ok (text, left)) :
    ¬ isLowSurrogate n = true ∧
      (isHighSurrogate n = true → ∃ low, lowSurrogate more = .ok low) := by
  rw [stringFrom_backslash, escape_unit] at hread
  simp only [unicodeEscape_of_fourDigits h] at hread
  have hsingle : ¬ isLowSurrogate n = true := by
    intro hlow
    rw [if_pos hlow] at hread
    cases hread
  refine ⟨hsingle, fun hhigh => ?_⟩
  cases hlow : lowSurrogate more with
  | ok low => exact ⟨low, rfl⟩
  | error fault =>
      rw [if_neg hsingle, if_pos hhigh, hlow] at hread
      cases hread

/-- Where the reader goes on, the content begins with a character. -/
theorem Content.first_of_keep {units : List Nat} {a rest text left : Bytes}
    (h : Content units a) (hne : a ≠ [])
    (hread : stringFrom .keep 0 (a ++ quote :: rest) = .ok (text, left)) :
    ∃ c more, units = Utf16.units c ++ more := by
  cases h with
  | nil => exact absurd rfl hne
  | @cons first more a b hfirst hrest =>
      rcases hfirst.reads with ⟨c, rfl, -⟩ | ⟨n, digits, hdigits, rfl, rfl⟩
      · exact ⟨c, more, rfl⟩
      rw [List.append_assoc, List.cons_append, List.cons_append] at hread
      obtain ⟨hsingle, hpair⟩ := lowSurrogate_of_keep hdigits hread
      by_cases hhigh : isHighSurrogate n = true
      · obtain ⟨low, hlow⟩ := hpair hhigh
        obtain ⟨hlow', more', rfl⟩ := hrest.of_lowSurrogate hlow
        refine ⟨ofPair n low, more', ?_⟩
        rw [units_ofPair hhigh hlow']
        rfl
      · have hn : n < 0xD800 ∨ 0xDFFF < n := by
          rw [isLowSurrogate_iff] at hsingle
          rw [isHighSurrogate_iff] at hhigh
          omega
        refine ⟨Char.ofNat n, more, ?_⟩
        rw [units_ofNat hn hdigits.lt]

/-- A string that is read is the text with its units. -/
theorem units_of_keep {units : List Nat} {a rest text left : Bytes} (h : Content units a)
    (hread : stringFrom .keep 0 (a ++ quote :: rest) = .ok (text, left)) :
    left = rest ∧ ∃ chars, units = Utf16.encode chars ∧ text = Utf8.encode chars := by
  -- on the number of units: a pair takes two pieces at once
  induction hsize : units.length using Nat.strong_induction_on generalizing units a text with
  | _ size ih =>
  by_cases hne : a = []
  · subst hne
    rw [List.nil_append, stringFrom_quote] at hread
    obtain ⟨rfl, rfl⟩ := Prod.mk.inj (Except.ok.inj hread)
    exact ⟨rfl, [], h.units_eq_nil, rfl⟩
  · obtain ⟨c, more, rfl⟩ := h.first_of_keep hne hread
    obtain ⟨first, b, rfl, hfirst, hrest⟩ := h.first rfl
    rw [List.append_assoc] at hread
    obtain ⟨tail, htail, rfl⟩ := hfirst.ok hread
    have hlt : more.length < size := by
      obtain ⟨n, tail, hhead, -⟩ := Utf16.head_units c
      rw [← hsize, hhead, List.length_append, List.length_cons]
      omega
    obtain ⟨hleft, chars, rfl, rfl⟩ := ih _ hlt hrest htail rfl
    exact ⟨hleft, c :: chars, (Utf16.encode_cons c chars).symm, (Utf8.encode_cons c chars).symm⟩

/-- A string is read exactly if its units are those of a text, and this text is given. -/
theorem string_keep_iff {units : List Nat} {a rest bytes left : Bytes} (h : Content units a) :
    string .keep (a ++ quote :: rest) = .ok (bytes, left) ↔
      left = rest ∧ ∃ text, units = unitsOf text ∧ bytes = Bytes.ofText text := by
  constructor
  · intro hread
    obtain ⟨hleft, chars, hunits, hbytes⟩ := units_of_keep h hread
    refine ⟨hleft, String.ofList chars, ?_, ?_⟩
    · rw [unitsOf, String.toList_ofList, hunits]
    · rw [Bytes.ofText, String.toList_ofList, hbytes]
  · rintro ⟨rfl, text, hunits, rfl⟩
    rw [string, passes_text h hunits, stringFrom_quote]
    simp [Except.map, Bytes.ofText]

end LintRunner.Json
