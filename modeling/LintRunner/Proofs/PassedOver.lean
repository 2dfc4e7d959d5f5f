import LintRunner.Proofs.WrittenJson

/-!
# Values that are passed over

A value that is not asked for is left exactly behind its last byte, however deep it is
nested. Only a number has no end of its own: what stands behind it must not go on with it.
-/

namespace LintRunner.Json

/-! ## Numbers -/

def NoDigit (text : Bytes) : Prop :=
  ∀ b ∈ text.head?, isDigit b = false

/-- No number goes on here. -/
def Ends (text : Bytes) : Prop :=
  ∀ b ∈ text.head?, isDigit b = false ∧ b ≠ 0x2E ∧ b ≠ 0x65 ∧ b ≠ 0x45

theorem beq_of_isDigit {b c : UInt8} (hb : isDigit b = true) (hc : isDigit c = false) :
    (b == c) = false := by
  rw [beq_eq_false_iff_ne]
  rintro rfl
  rw [hc] at hb
  cases hb

theorem digits_append {ds rest : Bytes} (h : Digits ds) (hrest : NoDigit rest) :
    digits (ds ++ rest) = (ds, rest) := by
  have hall : ∀ b ∈ ds, isDigit b = true := fun b hb => isDigit_iff.mpr (h.2 b hb)
  rw [digits, List.takeWhile_append_of_pos hall, List.dropWhile_append_of_pos hall]
  cases rest with
  | nil => simp
  | cons b rest =>
      have hb := hrest b rfl
      simp [hb]

theorem Digits.exists_cons {ds : Bytes} (h : Digits ds) :
    ∃ b more, ds = b :: more ∧ isDigit b = true := by
  obtain ⟨b, more, rfl⟩ := List.exists_cons_of_ne_nil h.1
  exact ⟨b, more, rfl, isDigit_iff.mpr (h.2 b List.mem_cons_self)⟩

theorem exponentPart_written (use : Use) {text rest : Bytes} (h : Exponent text)
    (hrest : Ends rest) : ∃ x, exponentPart use (text ++ rest) = .ok (x, rest) := by
  cases h with
  | absent =>
      cases rest with
      | nil => exact ⟨none, rfl⟩
      | cons b rest =>
          obtain ⟨-, -, he, hE⟩ := hrest b rfl
          refine ⟨none, ?_⟩
          rw [List.nil_append, exponentPart.eq_def]
          exact if_pos (by simp [he, hE])
  | @present e sign ds he hsign h =>
      have hletter : (e != 0x65 && e != 0x45) = false := by
        rcases he with rfl | rfl <;> rfl
      have hend : NoDigit rest := fun b hb => (hrest b hb).1
      have hdigits := digits_append h hend
      obtain ⟨b, more, rfl, hb⟩ := h.exists_cons
      rw [List.cons_append] at hdigits
      have hminus : (b == minus) = false := beq_of_isDigit hb rfl
      have hplus : (b == 0x2B) = false := beq_of_isDigit hb rfl
      rw [List.cons_append, exponentPart.eq_def]
      simp only [hletter, Bool.false_eq_true, if_false]
      simp only [List.mem_cons, List.not_mem_nil, or_false] at hsign
      rcases hsign with rfl | rfl | rfl
      · simp [hminus, hplus, hb, hdigits]
      · simp [hb, hdigits, minus]
      · simp [hb, hdigits, minus]

theorem fractionPart_written (use : Use) {text rest : Bytes} (h : Fraction text)
    (hrest : NoDigit rest) (hpoint : 0x2E ∉ rest.head?) :
    ∃ x, fractionPart use (text ++ rest) = .ok (x, rest) := by
  cases h with
  | absent =>
      cases rest with
      | nil => exact ⟨none, rfl⟩
      | cons b rest =>
          have hb : b ≠ 0x2E := by
            rintro rfl
            exact hpoint rfl
          refine ⟨none, ?_⟩
          rw [List.nil_append, fractionPart, if_pos (by simpa using hb)]
  | @present ds h =>
      have hdigits := digits_append h hrest
      obtain ⟨b, more, rfl, -⟩ := h.exists_cons
      refine ⟨some (b :: more), ?_⟩
      rw [List.cons_append, fractionPart, if_neg (by decide), hdigits]

theorem numeral_written (use : Use) (negative : Bool) {whole fraction exponent rest : Bytes}
    (hwhole : Whole whole) (hfraction : Fraction fraction) (hexponent : Exponent exponent)
    (hrest : Ends rest) :
    ∃ n, numeral use negative (whole ++ (fraction ++ (exponent ++ rest))) = .ok (n, rest) := by
  have hexponentEnd : NoDigit (exponent ++ rest) ∧ 0x2E ∉ (exponent ++ rest).head? := by
    cases hexponent with
    | absent => exact ⟨fun b hb => (hrest b hb).1, fun h => (hrest _ h).2.1 rfl⟩
    | present he _ _ =>
        rcases he with rfl | rfl <;> exact ⟨fun b hb => by cases hb; rfl, by simp⟩
  have hfractionEnd : NoDigit (fraction ++ (exponent ++ rest)) := by
    cases hfraction with
    | absent => exact hexponentEnd.1
    | present _ => exact fun b hb => by cases hb; rfl
  obtain ⟨x, hx⟩ := fractionPart_written use hfraction hexponentEnd.1 hexponentEnd.2
  obtain ⟨y, hy⟩ := exponentPart_written use hexponent hrest
  cases hwhole with
  | zero =>
      have hzero : (digits (fraction ++ (exponent ++ rest))).1 = [] := by
        cases h : fraction ++ (exponent ++ rest) with
        | nil => rfl
        | cons b more =>
            have hb := hfractionEnd b (by rw [h]; rfl)
            rw [digits, List.takeWhile_cons_of_neg (by rw [hb]; exact Bool.false_ne_true)]
      rw [List.singleton_append, numeral, if_neg (by decide), if_neg (by simp [hzero])]
      simp only [beq_self_eq_true, if_true, hx, bind, Except.bind, hy]
      exact ⟨_, rfl⟩
  | digits h hzero =>
      have hdigits := digits_append h hfractionEnd
      obtain ⟨b, more, rfl, hb⟩ := h.exists_cons
      have hne : (b == 0x30) = false := by simpa using hzero
      rw [List.cons_append] at hdigits ⊢
      rw [numeral, if_neg (by simp [hb]), if_neg (by simp [hne])]
      simp only [hne, hdigits, Bool.false_eq_true, if_false, hx, bind, Except.bind, hy]
      exact ⟨_, rfl⟩

/-! ## Values that are passed over -/

/-- The first byte of a value tells its kind. -/
def Value.Opens : Value → UInt8 → Prop
  | .null, b => b = 0x6E
  | .boolean value, b => b = if value then 0x74 else 0x66
  | .number, b => b = minus ∨ isDigit b = true
  | .string _, b => b = quote
  | .list _, b => b = openList
  | .object _, b => b = openObject

theorem Whole.exists_cons {text : Bytes} (h : Whole text) :
    ∃ b more, text = b :: more ∧ isDigit b = true := by
  cases h with
  | zero => exact ⟨0x30, [], rfl, rfl⟩
  | digits h _ => exact h.exists_cons

theorem Written.opens {v : Value} {text : Bytes} (h : Written (.value v) text) :
    ∃ b more, text = b :: more ∧ v.Opens b := by
  cases h with
  | null | true | false => exact ⟨_, _, rfl, rfl⟩
  | number hsign hwhole _ _ =>
      obtain ⟨b, more, rfl, hb⟩ := hwhole.exists_cons
      simp only [List.mem_cons, List.not_mem_nil, or_false] at hsign
      rcases hsign with rfl | rfl
      · exact ⟨b, _, rfl, .inr hb⟩
      · exact ⟨_, _, rfl, .inl rfl⟩
  | string | emptyList | list | emptyObject | object => exact ⟨_, _, rfl, rfl⟩

theorem Value.Opens.isSpace {v : Value} {b : UInt8} (h : v.Opens b) : isSpace b = false := by
  have hdigit : ∀ {b}, isDigit b = true → Json.isSpace b = false := by
    intro b hb
    rw [Bool.eq_false_iff, ne_eq, isSpace_iff]
    intro hmem
    simp only [List.mem_cons, List.not_mem_nil, or_false] at hmem
    rcases hmem with rfl | rfl | rfl | rfl <;> cases hb
  cases v with
  | number => exact h.elim (fun h => by rw [h]; rfl) hdigit
  | boolean value => cases value <;> (cases h; rfl)
  | null | string | list | object => cases h; rfl

theorem Value.Opens.kind {v : Value} {b : UInt8} (h : v.Opens b) :
    (b = quote → ∃ units, v = .string units) ∧ (b = openList → ∃ vs, v = .list vs) ∧
      (b = openObject → ∃ ms, v = .object ms) ∧ b ≠ closeList := by
  cases v with
  | string units => exact ⟨fun _ => ⟨units, rfl⟩, by cases h; exact ⟨nofun, nofun, by decide⟩⟩
  | list vs => cases h; exact ⟨nofun, fun _ => ⟨vs, rfl⟩, nofun, by decide⟩
  | object ms => cases h; exact ⟨nofun, nofun, fun _ => ⟨ms, rfl⟩, by decide⟩
  | null => cases h; exact ⟨nofun, nofun, nofun, by decide⟩
  | boolean value => cases value <;> (cases h; exact ⟨nofun, nofun, nofun, by decide⟩)
  | number =>
      rcases h with rfl | hb
      · exact ⟨nofun, nofun, nofun, by decide⟩
      · refine ⟨?_, ?_, ?_, ?_⟩ <;>
          · rintro rfl
            cases hb

theorem Value.Opens.ne_close {v : Value} {b : UInt8} (h : v.Opens b) : b ≠ closeList :=
  h.kind.2.2.2

/-- The first byte of an element stands behind the blanks before it. -/
theorem Written.element_opens {v : Value} {text : Bytes} (h : Written (.element v) text)
    (rest : Bytes) : ∃ b more, skipSpace (text ++ rest) = b :: more ∧ v.Opens b := by
  cases h with
  | @element v before text behind hbefore h hbehind =>
      obtain ⟨b, more, rfl, hb⟩ := h.opens
      refine ⟨b, more ++ behind ++ rest, ?_, hb⟩
      rw [List.append_assoc, skipSpace_append hbefore]
      exact skipSpace_cons hb.isSpace _

theorem Written.elements_opens {vs : List Value} {text : Bytes} (h : Written (.elements vs) text)
    (rest : Bytes) : ∃ b more, skipSpace (text ++ rest) = b :: more ∧ b ≠ closeList := by
  have hfirst : ∀ {v text}, Written (.element v) text → ∀ rest,
      ∃ b more, skipSpace (text ++ rest) = b :: more ∧ b ≠ closeList := by
    intro v text h rest
    obtain ⟨b, more, hopen, hb⟩ := h.element_opens rest
    exact ⟨b, more, hopen, hb.ne_close⟩
  cases h with
  | last h => exact hfirst h rest
  | next h _ =>
      rw [List.append_assoc]
      exact hfirst h _

/-- A member begins with the quote of its name. -/
theorem Written.members_opens {ms : List (List Nat × Value)} {text : Bytes}
    (h : Written (.members ms) text) (rest : Bytes) :
    ∃ more, skipSpace (text ++ rest) = quote :: more := by
  have hfirst : ∀ {m text}, Written (.member m) text → ∀ rest,
      ∃ more, skipSpace (text ++ rest) = quote :: more := by
    intro m text h rest
    cases h with
    | member hbefore _ _ _ =>
        rw [List.append_assoc, skipSpace_append hbefore]
        exact ⟨_, rfl⟩
  cases h with
  | lastMember h => exact hfirst h rest
  | nextMember h _ =>
      rw [List.append_assoc]
      exact hfirst h _

theorem behindColon_append {gap : Bytes} (h : Blank gap) (text : Bytes) :
    behindColon (gap ++ colon :: text) = .ok text := by
  rw [behindColon, skipSpace_append h]
  rfl

theorem member_append (before content behind text rest : Bytes) :
    before ++ 0x22 :: (content ++ 0x22 :: (behind ++ 0x3A :: text)) ++ rest =
      before ++ quote :: (content ++ quote :: (behind ++ colon :: (text ++ rest))) := by
  simp [quote, colon]

theorem word_append (w rest : Bytes) : word w (w ++ rest) = .ok rest := by
  induction w with
  | nil => cases rest <;> rfl
  | cons b w ih => rw [List.cons_append, word, if_pos (beq_self_eq_true b), ih]

/-- Passing over a value begins behind the blanks before it. -/
theorem skipWithin_congr {a b : Bytes} (h : skipSpace a = skipSpace b) (calls : Nat) :
    skipWithin (calls + 1) a = skipWithin (calls + 1) b := by
  rw [skipWithin, skipWithin, h]

theorem skipMember_congr {a b : Bytes} (h : skipSpace a = skipSpace b) (calls : Nat) :
    skipMember (calls + 1) a = skipMember (calls + 1) b := by
  rw [skipMember, skipMember, h]

theorem skipWithin_number {b : UInt8} (hb : isDigit b = true) (calls : Nat) (text : Bytes) :
    skipWithin (calls + 1) (b :: text) = (numeral .skip false (b :: text)).map (·.2) := by
  have hspace : isSpace b = false := Value.Opens.isSpace (v := .number) (.inr hb)
  have hne : ∀ c, isDigit c = false → (b == c) = false := fun c hc => beq_of_isDigit hb hc
  rw [skipWithin, skipSpace_cons hspace]
  simp only [hne 0x6E rfl, hne 0x74 rfl, hne 0x66 rfl, hne minus rfl, hb, Bool.false_eq_true,
    if_false, if_true]

/-- The blanks behind an element do not make the number in it go on. -/
theorem ends_append {gap rest : Bytes} (h : Blank gap) (hrest : Ends rest) :
    Ends (gap ++ rest) := by
  cases gap with
  | nil => exact hrest
  | cons b gap =>
      intro c hc
      cases hc
      have hb := h b List.mem_cons_self
      simp only [List.mem_cons, List.not_mem_nil, or_false] at hb
      rcases hb with rfl | rfl | rfl | rfl <;> decide

theorem ends_cons {b : UInt8} (h : b = comma ∨ b = closeList ∨ b = closeObject)
    (rest : Bytes) : Ends (b :: rest) := by
  intro c hc
  cases hc
  rcases h with rfl | rfl | rfl <;> decide

theorem skipList_first {calls : Nat} {text more : Bytes} {b : UInt8}
    (h : skipSpace text = b :: more) (hb : b ≠ closeList) :
    skipList (calls + 2) true text =
      skipWithin (calls + 1) text >>= skipList (calls + 1) false := by
  have hsame : skipSpace (b :: more) = skipSpace text := by
    rw [← h, skipSpace_skipSpace]
  rw [skipList, h, ← skipWithin_congr hsame]
  simp only [beq_false_of_ne hb, Bool.false_eq_true, if_false, if_true]

theorem skipObject_first {calls : Nat} {text more : Bytes} (h : skipSpace text = quote :: more) :
    skipObject (calls + 2) true text =
      skipMember (calls + 1) text >>= skipObject (calls + 1) false := by
  have hsame : skipSpace (quote :: more) = skipSpace text := by
    rw [← h, skipSpace_skipSpace]
  rw [skipObject, h, ← skipMember_congr hsame]
  rfl

/-- What passing over a part of a text leaves, given calls enough. The blanks behind an
element are left to be read, so what is left is told only up to blanks. -/
def Passed : Part → Bytes → Prop
  | .value _, text => ∀ calls rest, 2 * text.length ≤ calls + 1 → Ends rest →
      skipWithin (calls + 1) (text ++ rest) = .ok rest
  | .element _, text => ∀ calls rest, 2 * text.length ≤ calls + 1 → Ends rest →
      ∃ left, skipWithin (calls + 1) (text ++ rest) = .ok left ∧ skipSpace left = skipSpace rest
  | .elements _, text => ∀ calls rest, 2 * text.length ≤ calls + 1 →
      skipWithin (calls + 1) (text ++ closeList :: rest) >>= skipList (calls + 1) false = .ok rest
  | .member _, text => ∀ calls rest, 2 * text.length ≤ calls + 1 → Ends rest →
      ∃ left, skipMember (calls + 1) (text ++ rest) = .ok left ∧ skipSpace left = skipSpace rest
  | .members _, text => ∀ calls rest, 2 * text.length ≤ calls + 1 →
      skipMember (calls + 1) (text ++ closeObject :: rest) >>=
        skipObject (calls + 1) false = .ok rest

/-- Two calls for each byte are enough: by induction on how the text is written. -/
theorem passed_of_written {part : Part} {text : Bytes} (h : Written part text) :
    Passed part text := by
  induction h with
  | null =>
      intro calls rest _ _
      have hbytes : Bytes.ofText "null" = 0x6E :: nullRest := by decide
      rw [hbytes]
      exact word_append nullRest rest
  | true =>
      intro calls rest _ _
      have hbytes : Bytes.ofText "true" = 0x74 :: trueRest := by decide
      rw [hbytes]
      exact word_append trueRest rest
  | false =>
      intro calls rest _ _
      have hbytes : Bytes.ofText "false" = 0x66 :: falseRest := by decide
      rw [hbytes]
      exact word_append falseRest rest
  | @number sign whole fraction exponent hsign hwhole hfraction hexponent =>
      intro calls rest _ hrest
      rw [List.append_assoc, List.append_assoc, List.append_assoc]
      simp only [List.mem_cons, List.not_mem_nil, or_false] at hsign
      rcases hsign with rfl | rfl
      · obtain ⟨n, hn⟩ := numeral_written .skip false hwhole hfraction hexponent hrest
        obtain ⟨b, more, rfl, hb⟩ := hwhole.exists_cons
        rw [List.nil_append]
        exact (skipWithin_number hb calls _).trans (congrArg (Except.map (·.2)) hn)
      · obtain ⟨n, hn⟩ := numeral_written .skip true hwhole hfraction hexponent hrest
        exact congrArg (Except.map (·.2)) hn
  | @string units content h =>
      intro calls rest _ _
      obtain ⟨text, htext⟩ := string_skip h rest
      rw [List.cons_append, List.append_assoc]
      exact congrArg (Except.map (·.2)) htext
  | @emptyList gap h =>
      intro calls rest hcalls _
      obtain ⟨calls, rfl⟩ : ∃ c, calls = c + 1 := Nat.exists_eq_succ_of_ne_zero (by
        simp only [List.length_cons, List.length_append] at hcalls
        omega)
      show skipList (calls + 1) true ((gap ++ [0x5D]) ++ rest) = .ok rest
      rw [skipList, List.append_assoc, skipSpace_append h]
      rfl
  | @list vs text h ih =>
      intro calls rest hcalls _
      simp only [List.length_cons, List.length_append, List.length_nil] at hcalls
      obtain ⟨calls, rfl⟩ : ∃ c, calls = c + 2 := ⟨calls - 2, by omega⟩
      obtain ⟨b, more, hopen, hb⟩ := h.elements_opens (closeList :: rest)
      show skipList (calls + 2) true ((text ++ [closeList]) ++ rest) = .ok rest
      rw [List.append_assoc, List.singleton_append, skipList_first hopen hb]
      exact ih calls rest (by omega)
  | @emptyObject gap h =>
      intro calls rest hcalls _
      obtain ⟨calls, rfl⟩ : ∃ c, calls = c + 1 := Nat.exists_eq_succ_of_ne_zero (by
        simp only [List.length_cons, List.length_append] at hcalls
        omega)
      show skipObject (calls + 1) true ((gap ++ [0x7D]) ++ rest) = .ok rest
      rw [skipObject, List.append_assoc, skipSpace_append h]
      rfl
  | @object ms text h ih =>
      intro calls rest hcalls _
      simp only [List.length_cons, List.length_append, List.length_nil] at hcalls
      obtain ⟨calls, rfl⟩ : ∃ c, calls = c + 2 := ⟨calls - 2, by omega⟩
      obtain ⟨more, hopen⟩ := h.members_opens (closeObject :: rest)
      show skipObject (calls + 2) true ((text ++ [closeObject]) ++ rest) = .ok rest
      rw [List.append_assoc, List.singleton_append, skipObject_first hopen]
      exact ih calls rest (by omega)
  | @element v before text behind hbefore h hbehind ih =>
      intro calls rest hcalls hrest
      simp only [List.length_append] at hcalls
      refine ⟨behind ++ rest, ?_, skipSpace_append hbehind rest⟩
      rw [List.append_assoc, skipWithin_congr (skipSpace_append hbefore _), List.append_assoc]
      exact ih calls _ (by omega) (ends_append hbehind hrest)
  | @last v text h ih =>
      intro calls rest hcalls
      obtain ⟨left, hskip, hleft⟩ :=
        ih calls (closeList :: rest) hcalls (ends_cons (by simp) rest)
      rw [hskip]
      show skipList (calls + 1) false left = .ok rest
      rw [skipList, hleft]
      rfl
  | @next v vs text more h hmore ih ihmore =>
      intro calls rest hcalls
      simp only [List.length_cons, List.length_append] at hcalls
      obtain ⟨left, hskip, hleft⟩ :=
        ih calls (comma :: (more ++ closeList :: rest)) (by omega) (ends_cons (by simp) _)
      obtain ⟨calls, rfl⟩ : ∃ c, calls = c + 1 := ⟨calls - 1, by omega⟩
      rw [List.append_assoc]
      show skipWithin _ (text ++ comma :: (more ++ closeList :: rest)) >>= _ = _
      rw [hskip]
      show skipList (calls + 2) false left = .ok rest
      rw [skipList, hleft]
      exact ihmore calls rest (by omega)
  | @member name v before content behind text hbefore hname hbehind h ih =>
      intro calls rest hcalls hrest
      simp only [List.length_cons, List.length_append] at hcalls
      obtain ⟨calls, rfl⟩ : ∃ c, calls = c + 1 := ⟨calls - 1, by omega⟩
      obtain ⟨shown, hstring⟩ := string_skip hname (behind ++ colon :: (text ++ rest))
      obtain ⟨left, hskip, hleft⟩ := ih calls rest (by omega) hrest
      refine ⟨left, ?_, hleft⟩
      rw [member_append, skipMember_congr (skipSpace_append hbefore _)]
      show (string .skip (content ++ quote :: (behind ++ colon :: (text ++ rest))) >>=
        fun read => behindColon read.2 >>= skipWithin (calls + 1)) = _
      rw [hstring]
      show (behindColon (behind ++ colon :: (text ++ rest)) >>= skipWithin (calls + 1)) = _
      rw [behindColon_append hbehind]
      exact hskip
  | @lastMember m text h ih =>
      intro calls rest hcalls
      obtain ⟨left, hskip, hleft⟩ :=
        ih calls (closeObject :: rest) hcalls (ends_cons (by simp) rest)
      rw [hskip]
      show skipObject (calls + 1) false left = .ok rest
      rw [skipObject, hleft]
      rfl
  | @nextMember m ms text more h hmore ih ihmore =>
      intro calls rest hcalls
      simp only [List.length_cons, List.length_append] at hcalls
      obtain ⟨left, hskip, hleft⟩ :=
        ih calls (comma :: (more ++ closeObject :: rest)) (by omega) (ends_cons (by simp) _)
      obtain ⟨calls, rfl⟩ : ∃ c, calls = c + 1 := ⟨calls - 1, by omega⟩
      rw [List.append_assoc]
      show skipMember _ (text ++ comma :: (more ++ closeObject :: rest)) >>= _ = _
      rw [hskip]
      show skipObject (calls + 2) false left = .ok rest
      rw [skipObject, hleft]
      exact ihmore calls rest (by omega)

/-- Passing over an element leaves at most the blanks behind it. -/
theorem skipValue_written {v : Value} {text : Bytes} (h : Written (.element v) text)
    {rest : Bytes} (hrest : Ends rest) :
    ∃ left, skipValue (text ++ rest) = .ok left ∧ skipSpace left = skipSpace rest :=
  passed_of_written h _ rest (by rw [List.length_append]; omega) hrest

end LintRunner.Json
