import LintRunner.Text.Utf8
import Mathlib.Data.List.Basic

/-!
# Reading UTF-8 back

Bytes without a bad piece are the encoding of the text that is read from them,
and a text is read back from its encoding. A byte below 0x80 is read as itself
wherever it stands, and what follows it is read as if nothing stood before. The
first facts let a path be compared by its bytes; the last let a text of such
characters be looked for among the bytes as well as among the characters, and a
path be judged piece by piece.
-/

namespace LintRunner.Utf8

/-! ## Characters by their number -/

theorem toNat_ofNat_of_isValidChar {n : Nat} (h : n.isValidChar) :
    (Char.ofNat n).val.toNat = n := by
  rw [Char.ofNat, dif_pos h]
  rfl

theorem isValidChar_of_lt_surrogates {n : Nat} (h : n < 0xD800) : n.isValidChar :=
  Or.inl h

theorem isValidChar_of_gt_surrogates {n : Nat} (h : 0xDFFF < n) (hlt : n < 0x110000) :
    n.isValidChar :=
  Or.inr ⟨h, hlt⟩

theorem encodeChar_one {n : Nat} (h : n < 0x80) :
    String.utf8EncodeChar (Char.ofNat n) = [UInt8.ofNat n] := by
  have hv := toNat_ofNat_of_isValidChar (isValidChar_of_lt_surrogates (by omega : n < 0xD800))
  unfold String.utf8EncodeChar
  simp only [hv]
  rw [if_pos (by omega)]

theorem encodeChar_two {n : Nat} (hlo : 0x80 ≤ n) (hhi : n < 0x800) :
    String.utf8EncodeChar (Char.ofNat n) =
      [UInt8.ofNat (n / 64 + 0xC0), UInt8.ofNat (n % 64 + 0x80)] := by
  have hv := toNat_ofNat_of_isValidChar (isValidChar_of_lt_surrogates (by omega : n < 0xD800))
  unfold String.utf8EncodeChar
  simp only [hv]
  rw [if_neg (by omega), if_pos (by omega), Nat.mod_eq_of_lt (by omega : n / 64 < 0x20)]

theorem encodeChar_three {n : Nat} (hlo : 0x800 ≤ n) (hhi : n < 0x10000)
    (hvalid : n.isValidChar) :
    String.utf8EncodeChar (Char.ofNat n) =
      [UInt8.ofNat (n / 4096 + 0xE0), UInt8.ofNat (n / 64 % 64 + 0x80),
        UInt8.ofNat (n % 64 + 0x80)] := by
  have hv := toNat_ofNat_of_isValidChar hvalid
  unfold String.utf8EncodeChar
  simp only [hv]
  rw [if_neg (by omega), if_neg (by omega), if_pos (by omega),
    Nat.mod_eq_of_lt (by omega : n / 4096 < 0x10)]

theorem encodeChar_four {n : Nat} (hlo : 0x10000 ≤ n) (hhi : n < 0x110000) :
    String.utf8EncodeChar (Char.ofNat n) =
      [UInt8.ofNat (n / 262144 + 0xF0), UInt8.ofNat (n / 4096 % 64 + 0x80),
        UInt8.ofNat (n / 64 % 64 + 0x80), UInt8.ofNat (n % 64 + 0x80)] := by
  have hv := toNat_ofNat_of_isValidChar (isValidChar_of_gt_surrogates (by omega) hhi)
  unfold String.utf8EncodeChar
  simp only [hv]
  rw [if_neg (by omega), if_neg (by omega), if_neg (by omega),
    Nat.mod_eq_of_lt (by omega : n / 262144 < 0x08)]

theorem ofNat_eq_of_toNat_eq {n : Nat} {b : UInt8} (h : n = b.toNat) : UInt8.ofNat n = b := by
  subst h
  exact UInt8.ofNat_toNat

/-! ## The reader keeps the bytes it has seen -/

/-- The number of the character that `tail` ends, behind the bits `acc`. -/
def numberFrom (acc : Nat) (tail : Bytes) : Nat :=
  tail.foldl (fun acc b => acc * 64 + (b.toNat - 0x80)) acc

/-- The bytes `seen` are what has been read of a character: however the reader
lets it end, `seen` and the rest are its encoding. -/
def Reader.Holds : Reader → Bytes → Prop
  | .ready, seen => seen = []
  | .inside need lo hi acc, seen =>
    0 < need ∧ ∀ b tail, lo ≤ b → b ≤ hi → (∀ c ∈ tail, 0x80 ≤ c ∧ c ≤ 0xBF) →
      tail.length + 1 = need →
      String.utf8EncodeChar (Char.ofNat (numberFrom acc (b :: tail))) = seen ++ b :: tail

theorem Reader.Holds.step {need : Nat} {lo hi b : UInt8} {acc : Nat} {seen : Bytes}
    (h : (Reader.inside (need + 2) lo hi acc).Holds seen) (hlo : lo ≤ b) (hhi : b ≤ hi) :
    (Reader.inside (need + 1) 0x80 0xBF (acc * 64 + (b.toNat - 0x80))).Holds (seen ++ [b]) := by
  refine ⟨by omega, ?_⟩
  intro c tail hclo hchi htail hlength
  have hall : ∀ d ∈ c :: tail, 0x80 ≤ d ∧ d ≤ 0xBF := by
    intro d hd
    rcases List.mem_cons.mp hd with rfl | hd
    · exact ⟨hclo, hchi⟩
    · exact htail d hd
  have := h.2 b (c :: tail) hlo hhi hall (by simp only [List.length_cons]; omega)
  simpa [numberFrom] using this

/-- What a first byte leads to. -/
inductive Starts (b : UInt8) : List (Option Char) × Reader → Prop
  | done {c : Char} : String.utf8EncodeChar c = [b] → Starts b ([some c], .ready)
  | more {need : Nat} {lo hi : UInt8} {acc : Nat} :
      (Reader.inside need lo hi acc).Holds [b] → Starts b ([], .inside need lo hi acc)
  | bad : Starts b ([none], .ready)

theorem holds_two {b : UInt8} (hlo : 0xC2 ≤ b.toNat) (hhi : b.toNat ≤ 0xDF) :
    (Reader.inside 1 0x80 0xBF (b.toNat - 0xC0)).Holds [b] := by
  refine ⟨by omega, ?_⟩
  intro c tail hclo hchi _ hlength
  obtain rfl : tail = [] := List.length_eq_zero_iff.mp (by omega)
  rw [UInt8.le_iff_toNat_le] at hclo hchi
  simp only [UInt8.reduceToNat] at hclo hchi
  simp only [numberFrom, List.foldl_cons, List.foldl_nil]
  rw [encodeChar_two (by omega) (by omega)]
  simp only [List.singleton_append, List.cons.injEq, and_true]
  exact ⟨ofNat_eq_of_toNat_eq (by omega), ofNat_eq_of_toNat_eq (by omega)⟩

theorem holds_three {b : UInt8} (lo hi : UInt8) (hb : 0xE0 ≤ b.toNat) (hb' : b.toNat ≤ 0xEF)
    (hlo : 0x80 ≤ lo.toNat) (hhi : hi.toNat ≤ 0xBF)
    (hlong : b.toNat = 0xE0 → 0xA0 ≤ lo.toNat)
    (hvalid : b.toNat = 0xED → hi.toNat ≤ 0x9F) :
    (Reader.inside 2 lo hi (b.toNat - 0xE0)).Holds [b] := by
  refine ⟨by omega, ?_⟩
  intro c tail hclo hchi htail hlength
  obtain ⟨d, rfl⟩ : ∃ d, tail = [d] := List.length_eq_one_iff.mp (by omega)
  have hd := htail d (by simp)
  rw [UInt8.le_iff_toNat_le] at hclo hchi
  rw [UInt8.le_iff_toNat_le, UInt8.le_iff_toNat_le] at hd
  simp only [UInt8.reduceToNat] at hd
  simp only [numberFrom, List.foldl_cons, List.foldl_nil]
  rw [encodeChar_three (by omega) (by omega)]
  · simp only [List.singleton_append, List.cons.injEq, and_true]
    exact ⟨ofNat_eq_of_toNat_eq (by omega), ofNat_eq_of_toNat_eq (by omega),
      ofNat_eq_of_toNat_eq (by omega)⟩
  · rcases Nat.lt_or_ge b.toNat 0xEE with h | h
    · exact isValidChar_of_lt_surrogates (by omega)
    · exact isValidChar_of_gt_surrogates (by omega) (by omega)

theorem holds_four {b : UInt8} (lo hi : UInt8) (hb : 0xF0 ≤ b.toNat) (hb' : b.toNat ≤ 0xF4)
    (hlo : 0x80 ≤ lo.toNat) (hhi : hi.toNat ≤ 0xBF)
    (hlong : b.toNat = 0xF0 → 0x90 ≤ lo.toNat)
    (hlarge : b.toNat = 0xF4 → hi.toNat ≤ 0x8F) :
    (Reader.inside 3 lo hi (b.toNat - 0xF0)).Holds [b] := by
  refine ⟨by omega, ?_⟩
  intro c tail hclo hchi htail hlength
  obtain ⟨d, e, rfl⟩ : ∃ d e, tail = [d, e] := List.length_eq_two.mp (by omega)
  have hd := htail d (by simp)
  have he := htail e (by simp)
  rw [UInt8.le_iff_toNat_le] at hclo hchi
  rw [UInt8.le_iff_toNat_le, UInt8.le_iff_toNat_le] at hd he
  simp only [UInt8.reduceToNat] at hd he
  simp only [numberFrom, List.foldl_cons, List.foldl_nil]
  rw [encodeChar_four (by omega) (by omega)]
  simp only [List.singleton_append, List.cons.injEq, and_true]
  exact ⟨ofNat_eq_of_toNat_eq (by omega), ofNat_eq_of_toNat_eq (by omega),
    ofNat_eq_of_toNat_eq (by omega), ofNat_eq_of_toNat_eq (by omega)⟩

theorem start_spec (b : UInt8) : Starts b (Reader.start b) := by
  unfold Reader.start
  simp only [UInt8.lt_iff_toNat_lt, UInt8.le_iff_toNat_le, Bool.and_eq_true, decide_eq_true_eq,
    beq_iff_eq, ← UInt8.toNat_inj, UInt8.reduceToNat]
  split
  · refine .done ?_
    rw [encodeChar_one (by assumption), UInt8.ofNat_toNat]
  split
  · exact .more (holds_two (by omega) (by omega))
  split
  · rename_i h
    have hmore := holds_three (b := b) 0xA0 0xBF (by omega) (by omega)
      (by decide) (by decide) (fun _ => by decide) (by omega)
    rw [h] at hmore
    exact .more hmore
  split
  · rename_i h
    have hmore := holds_three (b := b) 0x80 0x9F (by omega) (by omega)
      (by decide) (by decide) (by omega) (fun _ => by decide)
    rw [h] at hmore
    exact .more hmore
  split
  · exact .more (holds_three _ _ (by omega) (by omega) (by decide) (by decide) (by omega) (by omega))
  split
  · rename_i h
    have hmore := holds_four (b := b) 0x90 0xBF (by omega) (by omega)
      (by decide) (by decide) (fun _ => by decide) (by omega)
    rw [h] at hmore
    exact .more hmore
  split
  · exact .more (holds_four _ _ (by omega) (by omega) (by decide) (by decide) (by omega) (by omega))
  split
  · rename_i h
    have hmore := holds_four (b := b) 0x80 0x8F (by omega) (by omega)
      (by decide) (by decide) (by omega) (fun _ => by decide)
    rw [h] at hmore
    exact .more hmore
  · exact .bad

/-! ## From bytes to text and back -/

/-- Characters without a bad piece between them encode the bytes they were
read from, those seen before included. -/
theorem encode_of_pieces {bytes : Bytes} : ∀ (r : Reader) (seen : Bytes) {text : List Char},
    r.Holds seen → pieces r bytes = text.map some → encode text = seen ++ bytes := by
  induction bytes with
  | nil =>
      intro r seen text hr htext
      cases r with
      | ready =>
          obtain rfl : text = [] := by simpa [pieces, Reader.finish] using htext.symm
          simpa [encode] using hr.symm
      | inside => cases text <;> simp [pieces, Reader.finish] at htext
  | cons b rest ih =>
      intro r seen text hr htext
      rw [pieces] at htext
      cases r with
      | ready =>
          obtain rfl : seen = [] := hr
          rw [Reader.step] at htext
          have hstart := start_spec b
          generalize Reader.start b = started at hstart htext
          cases hstart with
          | @done c hc =>
              cases text with
              | nil => simp at htext
              | cons c' text =>
                  simp only [List.cons_append, List.nil_append, List.map_cons, List.cons.injEq,
                    Option.some.injEq] at htext
                  obtain ⟨rfl, htext⟩ := htext
                  have hrest := ih .ready [] rfl htext
                  simp only [encode, List.flatMap_cons, hc] at hrest ⊢
                  rw [hrest]
                  rfl
          | more hmore => exact ih _ _ hmore htext
          | bad => cases text <;> simp at htext
      | inside need lo hi acc =>
          rw [Reader.step] at htext
          split at htext
          · rename_i hb
            simp only [Bool.and_eq_true, decide_eq_true_eq] at hb
            match need, hr with
            | 1, hr =>
                cases text with
                | nil => simp at htext
                | cons c text =>
                    simp only [List.cons_append, List.nil_append, List.map_cons,
                      List.cons.injEq, Option.some.injEq] at htext
                    obtain ⟨rfl, htext⟩ := htext
                    have hrest := ih .ready [] rfl htext
                    have hc := hr.2 b [] hb.1 hb.2 (by simp) rfl
                    simp only [numberFrom, List.foldl_cons, List.foldl_nil] at hc
                    simp only [encode, List.flatMap_cons] at hrest ⊢
                    rw [hrest, hc]
                    simp
            | need + 2, hr =>
                have := ih _ _ (hr.step hb.1 hb.2) htext
                simpa using this
          · cases text <;> simp at htext

theorem mapM_id_eq_some {α : Type} {l : List (Option α)} {xs : List α} :
    l.mapM id = some xs ↔ l = xs.map some := by
  induction l generalizing xs with
  | nil => cases xs <;> simp
  | cons a l ih =>
      cases a with
      | none => cases xs <;> simp
      | some a =>
          cases xs with
          | nil => simp [Option.bind_eq_some_iff]
          | cons x xs => simp [Option.bind_eq_some_iff, ih, and_comm]

theorem encode_of_decode? {bytes : Bytes} {text : List Char} (h : decode? bytes = some text) :
    encode text = bytes := by
  have := encode_of_pieces .ready [] rfl (mapM_id_eq_some.mp h)
  simpa using this

theorem encode_injective {a b : List Char} (h : encode a = encode b) : a = b := by
  have hbytes : (String.ofList a).toByteArray = (String.ofList b).toByteArray := by
    rw [String.toByteArray_ofList, String.toByteArray_ofList, List.utf8Encode, List.utf8Encode]
    exact congrArg List.toByteArray h
  have := congrArg String.toList (String.toByteArray_inj.mp hbytes)
  rwa [String.toList_ofList, String.toList_ofList] at this

theorem pieces_append {a : Bytes} : ∀ {r : Reader} {text : List Char},
    pieces r a = text.map some → ∀ b, pieces r (a ++ b) = text.map some ++ pieces .ready b := by
  induction a with
  | nil =>
      intro r text htext b
      cases r with
      | ready =>
          obtain rfl : text = [] := by simpa [pieces, Reader.finish] using htext.symm
          rfl
      | inside => cases text <;> simp [pieces, Reader.finish] at htext
  | cons x a ih =>
      intro r text htext b
      rw [pieces] at htext
      obtain ⟨first, rest, rfl, hfirst, hrest⟩ := List.append_eq_map_iff.mp htext
      rw [List.cons_append, pieces, ih hrest.symm b, ← hfirst]
      simp

theorem decode?_append {a b : Bytes} {x y : List Char} (ha : decode? a = some x)
    (hb : decode? b = some y) : decode? (a ++ b) = some (x ++ y) := by
  have ha' := mapM_id_eq_some.mp ha
  have hb' := mapM_id_eq_some.mp hb
  apply mapM_id_eq_some.mpr
  rw [decode] at ha' hb' ⊢
  rw [pieces_append ha', hb', List.map_append]

/-! ## Plain characters

A plain character is one byte, and no other character and no bad piece is read
as one. So a text of plain characters stands among the characters exactly where
it stands among the bytes. -/

def Plain (c : Char) : Prop :=
  0 < c.toNat ∧ c.toNat < 0x80

instance (c : Char) : Decidable (Plain c) :=
  inferInstanceAs (Decidable (_ ∧ _))

theorem plain_of_all {text : List Char} (h : (text.all fun c => decide (Plain c)) = true) :
    ∀ c ∈ text, Plain c := by
  intro c hc
  exact of_decide_eq_true (List.all_eq_true.mp h c hc)

theorem not_plain_replacement : ¬ Plain replacement := by decide

theorem not_plain_ofNat {n : Nat} (h : 0x80 ≤ n) : ¬ Plain (Char.ofNat n) := by
  by_cases hvalid : n.isValidChar
  · have := toNat_ofNat_of_isValidChar hvalid
    rintro ⟨-, hlt⟩
    rw [Char.toNat, this] at hlt
    omega
  · rw [Char.ofNat, dif_neg hvalid]
    decide

theorem ofNat_eq_iff_of_plain {c : Char} {b : UInt8} (hc : Plain c) (hb : b.toNat < 0x80) :
    c = Char.ofNat b.toNat ↔ UInt8.ofNat c.toNat = b := by
  have hv := toNat_ofNat_of_isValidChar
    (isValidChar_of_lt_surrogates (by omega : b.toNat < 0xD800))
  constructor
  · rintro rfl
    rw [Char.toNat, hv, UInt8.ofNat_toNat]
  · intro h
    have hc' := hc.2
    rw [← h, UInt8.toNat_ofNat', Nat.mod_eq_of_lt (by omega), Char.ofNat_toNat]

theorem toNat_ofNat_of_plain {c : Char} (hc : Plain c) :
    (UInt8.ofNat c.toNat).toNat = c.toNat := by
  have := hc.2
  rw [UInt8.toNat_ofNat', Nat.mod_eq_of_lt (by omega)]

theorem encode_of_plain {text : List Char} (h : ∀ c ∈ text, Plain c) :
    encode text = text.map fun c => UInt8.ofNat c.toNat := by
  induction text with
  | nil => rfl
  | cons c text ih =>
      have hc := (h c List.mem_cons_self).2
      have hone : String.utf8EncodeChar c = [UInt8.ofNat c.toNat] := by
        have := encodeChar_one hc
        rwa [Char.ofNat_toNat] at this
      have hrest := ih fun d hd => h d (List.mem_cons_of_mem _ hd)
      rw [encode] at hrest ⊢
      rw [List.flatMap_cons, hone, hrest]
      rfl

/-- What the reader shows of bytes, from the middle of a character on. -/
def lossyFrom (r : Reader) (bytes : Bytes) : List Char :=
  (pieces r bytes).map (·.getD replacement)

/-- A reader inside a character that cannot be plain. -/
def Reader.Wide : Reader → Prop
  | .ready => True
  | .inside need lo _ acc =>
    0x80 ≤ lo.toNat ∧ (1 ≤ acc ∨ 0x82 ≤ lo.toNat) ∧ (need ≤ 1 → 2 ≤ acc)

theorem start_of_lt {b : UInt8} (hb : b.toNat < 0x80) :
    Reader.start b = ([some (Char.ofNat b.toNat)], .ready) := by
  unfold Reader.start
  rw [if_pos (UInt8.lt_iff_toNat_lt.mpr hb)]

/-- A byte above 0x7F is no plain character by itself. -/
theorem start_of_ge {b : UInt8} (hb : 0x80 ≤ b.toNat) :
    Reader.start b = ([none], .ready) ∨
      ∃ need lo hi acc, Reader.start b = ([], .inside need lo hi acc) ∧
        (Reader.inside need lo hi acc).Wide := by
  unfold Reader.start
  simp only [UInt8.lt_iff_toNat_lt, UInt8.le_iff_toNat_le, Bool.and_eq_true, decide_eq_true_eq,
    beq_iff_eq, ← UInt8.toNat_inj, UInt8.reduceToNat]
  rw [if_neg (by omega)]
  split
  · exact Or.inr ⟨_, _, _, _, rfl, by decide, by omega, by omega⟩
  split
  · exact Or.inr ⟨_, _, _, _, rfl, by decide, by decide, by omega⟩
  split
  · exact Or.inr ⟨_, _, _, _, rfl, by decide, by decide, by omega⟩
  split
  · exact Or.inr ⟨_, _, _, _, rfl, by decide, by omega, by omega⟩
  split
  · exact Or.inr ⟨_, _, _, _, rfl, by decide, by decide, by omega⟩
  split
  · exact Or.inr ⟨_, _, _, _, rfl, by decide, by omega, by omega⟩
  split
  · exact Or.inr ⟨_, _, _, _, rfl, by decide, by decide, by omega⟩
  · exact Or.inl rfl

/-- A byte above 0x7F shows nothing plain and leads on to a wide reader. -/
theorem step_of_ge {r : Reader} {b : UInt8} (hr : r.Wide) (hb : 0x80 ≤ b.toNat) :
    (∀ c ∈ (r.step b).1.map (·.getD replacement), ¬ Plain c) ∧ (r.step b).2.Wide := by
  have hstart : (∀ c ∈ (Reader.start b).1.map (·.getD replacement), ¬ Plain c) ∧
      (Reader.start b).2.Wide := by
    rcases start_of_ge hb with h | ⟨need, lo, hi, acc, h, hwide⟩
    · rw [h]
      simp [not_plain_replacement, Reader.Wide]
    · rw [h]
      exact ⟨by simp, hwide⟩
  cases r with
  | ready => exact hstart
  | inside need lo hi acc =>
      obtain ⟨hlo, hwide, hlast⟩ := hr
      rw [Reader.step]
      split
      · rename_i h
        simp only [Bool.and_eq_true, decide_eq_true_eq, UInt8.le_iff_toNat_le] at h
        have hacc : 2 ≤ acc * 64 + (b.toNat - 0x80) := by omega
        match need with
        | 0 | 1 => simpa [Reader.Wide] using not_plain_ofNat (by omega)
        | need + 2 => exact ⟨by simp, by decide, by omega, fun _ => hacc⟩
      · simpa [not_plain_replacement] using hstart

/-- A byte below 0x80 shows itself, maybe behind a bad piece. -/
theorem step_of_lt {r : Reader} {b : UInt8} (hr : r.Wide) (hb : b.toNat < 0x80) :
    ∃ bad : List Char, (∀ c ∈ bad, ¬ Plain c) ∧
      (r.step b).1.map (·.getD replacement) = bad ++ [Char.ofNat b.toNat] ∧
      (r.step b).2 = .ready := by
  cases r with
  | ready => exact ⟨[], by simp, by simp [Reader.step, start_of_lt hb]⟩
  | inside need lo hi acc =>
      obtain ⟨hlo, -, -⟩ := hr
      rw [Reader.step, if_neg]
      · exact ⟨[replacement], by simp [not_plain_replacement], by simp [start_of_lt hb]⟩
      · simp only [Bool.and_eq_true, decide_eq_true_eq, UInt8.le_iff_toNat_le]
        omega

theorem lossyFrom_cons (r : Reader) (b : UInt8) (rest : Bytes) :
    lossyFrom r (b :: rest) =
      (r.step b).1.map (·.getD replacement) ++ lossyFrom (r.step b).2 rest := by
  rw [lossyFrom, pieces, List.map_append]
  rfl

theorem lossyFrom_ready_cons {b : UInt8} (hb : b.toNat < 0x80) (rest : Bytes) :
    lossyFrom .ready (b :: rest) = Char.ofNat b.toNat :: lossyFrom .ready rest := by
  rw [lossyFrom_cons, Reader.step, start_of_lt hb]
  rfl

/-- The first thing shown of a character that is not plain is not plain. -/
theorem head_lossyFrom {bytes : Bytes} : ∀ {need : Nat} {lo hi : UInt8} {acc : Nat},
    (Reader.inside need lo hi acc).Wide →
      ∃ c rest, lossyFrom (.inside need lo hi acc) bytes = c :: rest ∧ ¬ Plain c := by
  induction bytes with
  | nil =>
      intro need lo hi acc _
      exact ⟨replacement, [], rfl, not_plain_replacement⟩
  | cons b bytes ih =>
      intro need lo hi acc ⟨hlo, hwide, hlast⟩
      rw [lossyFrom_cons, Reader.step]
      split
      · rename_i h
        simp only [Bool.and_eq_true, decide_eq_true_eq, UInt8.le_iff_toNat_le] at h
        match need with
        | 0 | 1 =>
            refine ⟨Char.ofNat (acc * 64 + (b.toNat - 0x80)), lossyFrom .ready bytes, ?_,
              not_plain_ofNat (by omega)⟩
            simp
        | need + 2 => exact ih ⟨by decide, by omega, by omega⟩
      · exact ⟨replacement, _, rfl, not_plain_replacement⟩

theorem prefix_lossyFrom_iff {text : List Char} (htext : ∀ c ∈ text, Plain c) :
    ∀ {bytes : Bytes}, text <+: lossyFrom .ready bytes ↔ encode text <+: bytes := by
  rw [encode_of_plain htext]
  induction text with
  | nil => simp
  | cons c text ih =>
      intro bytes
      have hc := htext c List.mem_cons_self
      cases bytes with
      | nil => simp [lossyFrom, pieces, Reader.finish]
      | cons b bytes =>
          rw [List.map_cons, List.cons_prefix_cons]
          rcases Nat.lt_or_ge b.toNat 0x80 with hb | hb
          · rw [lossyFrom_ready_cons hb, List.cons_prefix_cons, ofNat_eq_iff_of_plain hc hb,
              ih fun d hd => htext d (List.mem_cons_of_mem _ hd)]
          · have hne : UInt8.ofNat c.toNat ≠ b := by
              rintro rfl
              rw [toNat_ofNat_of_plain hc] at hb
              exact absurd hc.2 (by omega)
            obtain ⟨d, rest, hrest, hd⟩ :
                ∃ d rest, lossyFrom .ready (b :: bytes) = d :: rest ∧ ¬ Plain d := by
              rw [lossyFrom_cons, Reader.step]
              rcases start_of_ge hb with h | ⟨need, lo, hi, acc, h, hwide⟩
              · rw [h]
                exact ⟨replacement, _, rfl, not_plain_replacement⟩
              · rw [h]
                exact head_lossyFrom hwide
            rw [hrest, List.cons_prefix_cons]
            constructor
            · rintro ⟨rfl, -⟩
              exact absurd hc hd
            · rintro ⟨h, -⟩
              exact absurd h hne

/-- Characters of another kind in front do not matter. -/
theorem infix_append_iff {α : Type} {p : α → Prop} {a : α} {piece bad rest : List α}
    (ha : p a) (hbad : ∀ x ∈ bad, ¬ p x) :
    a :: piece <:+: bad ++ rest ↔ a :: piece <:+: rest := by
  induction bad with
  | nil => rfl
  | cons x bad ih =>
      rw [List.cons_append, List.infix_cons_iff, List.cons_prefix_cons,
        ih fun y hy => hbad y (List.mem_cons_of_mem _ hy)]
      constructor
      · rintro (⟨rfl, -⟩ | h)
        · exact absurd ha (hbad a List.mem_cons_self)
        · exact h
      · exact Or.inr

theorem infix_lossyFrom_iff {text : List Char} (htext : ∀ c ∈ text, Plain c) (hne : text ≠ [])
    {bytes : Bytes} : ∀ {r : Reader}, r.Wide →
      (text <:+: lossyFrom r bytes ↔ encode text <:+: bytes) := by
  obtain ⟨c, text, rfl⟩ := List.exists_cons_of_ne_nil hne
  have hc := htext c List.mem_cons_self
  have hencode := encode_of_plain htext
  rw [List.map_cons] at hencode
  induction bytes with
  | nil =>
      intro r _
      rw [hencode]
      constructor
      · intro h
        have hmem : c ∈ lossyFrom r [] := h.subset List.mem_cons_self
        cases r with
        | ready => simp [lossyFrom, pieces, Reader.finish] at hmem
        | inside =>
            obtain rfl : c = replacement := by
              simpa [lossyFrom, pieces, Reader.finish] using hmem
            exact absurd hc not_plain_replacement
      · simp
  | cons b bytes ih =>
      intro r hr
      rw [lossyFrom_cons]
      rcases Nat.lt_or_ge b.toNat 0x80 with hb | hb
      · obtain ⟨bad, hbad, hshown, hready⟩ := step_of_lt hr hb
        rw [hshown, hready, List.append_assoc, infix_append_iff hc hbad, List.singleton_append,
          List.infix_cons_iff, List.infix_cons_iff, ih (r := .ready) trivial, ← lossyFrom_ready_cons hb,
          prefix_lossyFrom_iff htext]
      · obtain ⟨hshown, hwide⟩ := step_of_ge hr hb
        rw [infix_append_iff hc hshown, ih hwide, List.infix_cons_iff, hencode,
          List.cons_prefix_cons]
        constructor
        · exact Or.inr
        · rintro (⟨rfl, -⟩ | h)
          · rw [toNat_ofNat_of_plain hc] at hb
            exact absurd hc.2 (by omega)
          · exact h

/-- A text of plain characters is found in what bytes show exactly if its
encoding is found in the bytes. -/
theorem infix_decodeLossy_iff {text : List Char} (htext : ∀ c ∈ text, Plain c)
    (hne : text ≠ []) (bytes : Bytes) :
    text <:+: decodeLossy bytes ↔ encode text <:+: bytes :=
  infix_lossyFrom_iff htext hne (r := .ready) trivial

/-! ## What was written is read back -/

theorem toNat_ofNat_of_lt {n : Nat} (h : n < 256) : (UInt8.ofNat n).toNat = n := by
  rw [UInt8.toNat_ofNat', Nat.mod_eq_of_lt h]

theorem start_two {b : UInt8} (hlo : 0xC2 ≤ b.toNat) (hhi : b.toNat ≤ 0xDF) :
    Reader.start b = ([], .inside 1 0x80 0xBF (b.toNat - 0xC0)) := by
  unfold Reader.start
  simp only [UInt8.lt_iff_toNat_lt, UInt8.le_iff_toNat_le, Bool.and_eq_true, decide_eq_true_eq,
    UInt8.reduceToNat]
  rw [if_neg (by omega), if_pos ⟨hlo, hhi⟩]

/-- The byte behind the first one is bound so that the character is neither too
short nor a surrogate. -/
theorem start_three {b : UInt8} (hlo : 0xE0 ≤ b.toNat) (hhi : b.toNat ≤ 0xEF) :
    ∃ lo hi, Reader.start b = ([], .inside 2 lo hi (b.toNat - 0xE0)) ∧
      lo.toNat ≤ (if b.toNat = 0xE0 then 0xA0 else 0x80) ∧
      (if b.toNat = 0xED then 0x9F else 0xBF) ≤ hi.toNat := by
  unfold Reader.start
  simp only [UInt8.lt_iff_toNat_lt, UInt8.le_iff_toNat_le, Bool.and_eq_true, decide_eq_true_eq,
    beq_iff_eq, ← UInt8.toNat_inj, UInt8.reduceToNat]
  rw [if_neg (by omega), if_neg (by omega)]
  split
  · rename_i h
    exact ⟨0xA0, 0xBF, by rw [h], by decide, by rw [if_neg (by omega)]; decide⟩
  · split
    · rename_i h
      exact ⟨0x80, 0x9F, by rw [h], by decide, by decide⟩
    · rw [if_pos (by omega)]
      exact ⟨0x80, 0xBF, rfl, by decide, by decide⟩

/-- The byte behind the first one is bound so that the character is neither too
short nor too large. -/
theorem start_four {b : UInt8} (hlo : 0xF0 ≤ b.toNat) (hhi : b.toNat ≤ 0xF4) :
    ∃ lo hi, Reader.start b = ([], .inside 3 lo hi (b.toNat - 0xF0)) ∧
      lo.toNat ≤ (if b.toNat = 0xF0 then 0x90 else 0x80) ∧
      (if b.toNat = 0xF4 then 0x8F else 0xBF) ≤ hi.toNat := by
  unfold Reader.start
  simp only [UInt8.lt_iff_toNat_lt, UInt8.le_iff_toNat_le, Bool.and_eq_true, decide_eq_true_eq,
    beq_iff_eq, ← UInt8.toNat_inj, UInt8.reduceToNat]
  rw [if_neg (by omega), if_neg (by omega), if_neg (by omega), if_neg (by omega),
    if_neg (by omega)]
  split
  · rename_i h
    exact ⟨0x90, 0xBF, by rw [h], by decide, by rw [if_neg (by omega)]; decide⟩
  · split
    · exact ⟨0x80, 0xBF, rfl, by decide, by rw [if_neg (by omega)]; decide⟩
    · have h : b.toNat = 0xF4 := by omega
      rw [if_pos h, h]
      exact ⟨0x80, 0x8F, rfl, by decide, by decide⟩

theorem pieces_start {b : UInt8} {r : Reader} (h : Reader.start b = ([], r)) (rest : Bytes) :
    pieces .ready (b :: rest) = pieces r rest := by
  rw [pieces, Reader.step, h]
  rfl

/-- The last byte that a character needs ends it. -/
theorem pieces_last {lo hi b : UInt8} (acc : Nat) (hlo : lo.toNat ≤ b.toNat)
    (hhi : b.toNat ≤ hi.toNat) (rest : Bytes) :
    pieces (.inside 1 lo hi acc) (b :: rest) =
      some (Char.ofNat (acc * 64 + (b.toNat - 0x80))) :: pieces .ready rest := by
  have hin : (lo ≤ b && b ≤ hi) = true := by
    simpa [UInt8.le_iff_toNat_le] using And.intro hlo hhi
  rw [pieces, Reader.step, if_pos hin]
  rfl

theorem pieces_more {need : Nat} {lo hi b : UInt8} (acc : Nat) (hlo : lo.toNat ≤ b.toNat)
    (hhi : b.toNat ≤ hi.toNat) (rest : Bytes) :
    pieces (.inside (need + 2) lo hi acc) (b :: rest) =
      pieces (.inside (need + 1) 0x80 0xBF (acc * 64 + (b.toNat - 0x80))) rest := by
  have hin : (lo ≤ b && b ≤ hi) = true := by
    simpa [UInt8.le_iff_toNat_le] using And.intro hlo hhi
  rw [pieces, Reader.step, if_pos hin]
  rfl

theorem pieces_encodeChar (c : Char) (rest : Bytes) :
    pieces .ready (String.utf8EncodeChar c ++ rest) = some c :: pieces .ready rest := by
  obtain ⟨n, hn⟩ : ∃ n, n = c.toNat := ⟨_, rfl⟩
  have hc : c = Char.ofNat n := by rw [hn, Char.ofNat_toNat]
  have hvalid : n.isValidChar := by
    rw [hn]
    exact c.valid
  have hlt : n < 0x110000 := by
    rcases hvalid with h | ⟨-, h⟩ <;> omega
  -- the bytes behind the first one hold six bits each
  have hsix : ∀ m, (UInt8.ofNat (m % 64 + 0x80)).toNat = m % 64 + 0x80 ∧
      (0x80 : UInt8).toNat ≤ m % 64 + 0x80 ∧ m % 64 + 0x80 ≤ (0xBF : UInt8).toNat := by
    intro m
    exact ⟨toNat_ofNat_of_lt (by omega), by simp, by simp; omega⟩
  obtain ⟨hlast, hlastLo, hlastHi⟩ := hsix n
  obtain ⟨hthird, hthirdLo, hthirdHi⟩ := hsix (n / 64)
  obtain ⟨hsecond, -, -⟩ := hsix (n / 4096)
  rw [hc]
  rcases Nat.lt_or_ge n 0x80 with hone | hone
  · have hfirst : (UInt8.ofNat n).toNat = n := toNat_ofNat_of_lt (by omega)
    rw [encodeChar_one hone, List.singleton_append, pieces, Reader.step, start_of_lt (by omega),
      hfirst]
    rfl
  rcases Nat.lt_or_ge n 0x800 with htwo | htwo
  · have hfirst : (UInt8.ofNat (n / 64 + 0xC0)).toNat = n / 64 + 0xC0 :=
      toNat_ofNat_of_lt (by omega)
    have hnumber : (n / 64 + 0xC0 - 0xC0) * 64 + (n % 64 + 0x80 - 0x80) = n := by omega
    rw [encodeChar_two hone htwo]
    simp only [List.cons_append, List.nil_append]
    rw [pieces_start (start_two (by omega) (by omega)),
      pieces_last _ (by rwa [hlast]) (by rwa [hlast]), hfirst, hlast, hnumber]
  rcases Nat.lt_or_ge n 0x10000 with hthree | hthree
  · have hfirst : (UInt8.ofNat (n / 4096 + 0xE0)).toNat = n / 4096 + 0xE0 :=
      toNat_ofNat_of_lt (by omega)
    have hnumber : ((n / 4096 + 0xE0 - 0xE0) * 64 + (n / 64 % 64 + 0x80 - 0x80)) * 64 +
        (n % 64 + 0x80 - 0x80) = n := by omega
    obtain ⟨lo, hi, hstart, hlo, hhi⟩ :=
      start_three (b := UInt8.ofNat (n / 4096 + 0xE0)) (by omega) (by omega)
    rw [hfirst] at hlo hhi
    have hsurrogate : n / 4096 + 0xE0 = 0xED → n / 64 % 64 + 0x80 ≤ 0x9F := by
      intro h
      rcases hvalid with h | ⟨h, -⟩ <;> omega
    rw [encodeChar_three htwo hthree hvalid]
    simp only [List.cons_append, List.nil_append]
    rw [pieces_start hstart, pieces_more _ (by split at hlo <;> omega) (by split at hhi <;> omega),
      pieces_last _ (by rwa [hlast]) (by rwa [hlast]), hfirst, hthird, hlast, hnumber]
  · have hfirst : (UInt8.ofNat (n / 262144 + 0xF0)).toNat = n / 262144 + 0xF0 :=
      toNat_ofNat_of_lt (by omega)
    have hnumber : (((n / 262144 + 0xF0 - 0xF0) * 64 + (n / 4096 % 64 + 0x80 - 0x80)) * 64 +
        (n / 64 % 64 + 0x80 - 0x80)) * 64 + (n % 64 + 0x80 - 0x80) = n := by omega
    obtain ⟨lo, hi, hstart, hlo, hhi⟩ :=
      start_four (b := UInt8.ofNat (n / 262144 + 0xF0)) (by omega) (by omega)
    rw [hfirst] at hlo hhi
    rw [encodeChar_four hthree hlt]
    simp only [List.cons_append, List.nil_append]
    rw [pieces_start hstart, pieces_more _ (by split at hlo <;> omega) (by split at hhi <;> omega),
      pieces_more _ (by rwa [hthird]) (by rwa [hthird]), pieces_last _ (by rwa [hlast]) (by rwa [hlast]),
      hfirst, hsecond, hthird, hlast, hnumber]

theorem decode_encode (text : List Char) : decode (encode text) = text.map some := by
  induction text with
  | nil => rfl
  | cons c text ih =>
      show pieces .ready (String.utf8EncodeChar c ++ encode text) = _
      rw [pieces_encodeChar, List.map_cons, ← ih]
      rfl

theorem encode_cons (c : Char) (text : List Char) :
    encode (c :: text) = encode [c] ++ encode text := by
  rw [encode, encode, List.flatMap_singleton, List.flatMap_cons, encode]

theorem encode_ne_nil (c : Char) (text : List Char) : encode (c :: text) ≠ [] := by
  intro h
  have hdecode := decode_encode (c :: text)
  rw [h] at hdecode
  cases hdecode

/-- The first character of a text can be told from its bytes. -/
theorem eq_of_encode_append {c d : Char} {a b : Bytes}
    (h : encode [c] ++ a = encode [d] ++ b) : c = d := by
  have hc := pieces_encodeChar c a
  have hd := pieces_encodeChar d b
  rw [encode, encode, List.flatMap_singleton, List.flatMap_singleton] at h
  rw [h, hd] at hc
  exact (Option.some.inj (List.cons.inj hc).1).symm

/-! ## Bytes cut at a plain byte -/

/-- A byte below 0x80 begins anew, whatever stands before it. -/
theorem pieces_append_of_lt {b : UInt8} (hb : b.toNat < 0x80) (a rest : Bytes) :
    ∀ {r : Reader}, r.Wide → pieces r (a ++ b :: rest) = pieces r a ++ pieces .ready (b :: rest) := by
  induction a with
  | nil =>
      intro r hr
      cases r with
      | ready => rfl
      | inside need lo hi acc =>
          obtain ⟨hlo, -, -⟩ := hr
          have hout : ¬ (lo ≤ b && b ≤ hi) = true := by
            simp only [Bool.and_eq_true, decide_eq_true_eq, UInt8.le_iff_toNat_le]
            omega
          have hstep : (Reader.inside need lo hi acc).step b =
              (none :: (Reader.start b).1, (Reader.start b).2) := by
            rw [Reader.step, if_neg hout]
          show ((Reader.inside need lo hi acc).step b).1 ++ _ = _
          rw [hstep]
          rfl
  | cons x a ih =>
      intro r hr
      have hwide : (r.step x).2.Wide := by
        rcases Nat.lt_or_ge x.toNat 0x80 with hx | hx
        · obtain ⟨_, -, -, hready⟩ := step_of_lt hr hx
          rw [hready]
          trivial
        · exact (step_of_ge hr hx).2
      rw [List.cons_append, pieces, pieces, ih hwide, List.append_assoc]

theorem decode_append_of_lt {b : UInt8} (hb : b.toNat < 0x80) (a rest : Bytes) :
    decode (a ++ b :: rest) = decode a ++ some (Char.ofNat b.toNat) :: decode rest := by
  have hnext : pieces .ready (b :: rest) = some (Char.ofNat b.toNat) :: decode rest := by
    rw [pieces, Reader.step, start_of_lt hb]
    rfl
  rw [decode, pieces_append_of_lt hb a rest (r := .ready) trivial, hnext]
  rfl

theorem isSome_mapM_id {α : Type} {l : List (Option α)} : (l.mapM id).isSome ↔ none ∉ l := by
  induction l with
  | nil => simp
  | cons a l ih =>
      cases a with
      | none => simp
      | some a => simpa [Option.isSome_bind] using ih

theorem decodeLossy_of_decode? {bytes : Bytes} {text : List Char} (h : decode? bytes = some text) :
    decodeLossy bytes = text := by
  rw [decodeLossy, mapM_id_eq_some.mp h, List.map_map]
  exact List.map_id text

end LintRunner.Utf8

namespace LintRunner.Bytes

/-- A text read from bytes is written as these bytes. -/
theorem ofText_of_text? {bytes : Bytes} {text : String} (h : bytes.text? = some text) :
    ofText text = bytes := by
  obtain ⟨chars, hchars, rfl⟩ := Option.map_eq_some_iff.mp h
  rw [ofText, String.toList_ofList]
  exact Utf8.encode_of_decode? hchars

theorem ofText_injective {x y : String} (h : ofText x = ofText y) : x = y :=
  String.toList_inj.mp (Utf8.encode_injective h)

theorem text?_append {a b : Bytes} {x y : String} (ha : a.text? = some x)
    (hb : b.text? = some y) : (a ++ b).text? = some (x ++ y) := by
  obtain ⟨xs, hxs, rfl⟩ := Option.map_eq_some_iff.mp ha
  obtain ⟨ys, hys, rfl⟩ := Option.map_eq_some_iff.mp hb
  rw [text?, Utf8.decode?_append hxs hys, Option.map_some, String.ofList_append]

theorem ofText_append (x y : String) : ofText (x ++ y) = ofText x ++ ofText y := by
  simp [ofText, Utf8.encode]

theorem text?_ofText (text : String) : (ofText text).text? = some text := by
  have hread : Utf8.decode? (Utf8.encode text.toList) = some text.toList :=
    Utf8.mapM_id_eq_some.mpr (Utf8.decode_encode text.toList)
  rw [text?, ofText, hread, Option.map_some, String.ofList_toList]

/-- Bytes that are a text are shown as what they are. -/
theorem ofText_lossy {bytes : Bytes} (h : bytes.text?.isSome) : ofText bytes.lossy = bytes := by
  obtain ⟨text, htext⟩ := Option.isSome_iff_exists.mp h
  obtain ⟨chars, hchars, rfl⟩ := Option.map_eq_some_iff.mp htext
  rw [lossy, Utf8.decodeLossy_of_decode? hchars]
  exact ofText_of_text? htext

theorem isSome_text?_iff {bytes : Bytes} : bytes.text?.isSome ↔ none ∉ Utf8.decode bytes := by
  rw [text?, Option.isSome_map]
  exact Utf8.isSome_mapM_id

/-- Behind a text, bytes are a text exactly if they are one by themselves. -/
theorem isSome_text?_append {a : Bytes} (ha : a.text?.isSome) (b : Bytes) :
    (a ++ b).text?.isSome ↔ b.text?.isSome := by
  obtain ⟨text, htext⟩ := Option.isSome_iff_exists.mp ha
  obtain ⟨chars, hchars, rfl⟩ := Option.map_eq_some_iff.mp htext
  have hread : Utf8.decode (a ++ b) = chars.map some ++ Utf8.decode b :=
    Utf8.pieces_append (Utf8.mapM_id_eq_some.mp hchars) b
  rw [isSome_text?_iff, isSome_text?_iff, hread]
  simp

/-- At a plain byte, bytes are a text exactly if they are one on both sides. -/
theorem isSome_text?_cut {b : UInt8} (hb : b.toNat < 0x80) (a rest : Bytes) :
    (a ++ b :: rest).text?.isSome ↔ a.text?.isSome ∧ rest.text?.isSome := by
  rw [isSome_text?_iff, isSome_text?_iff, isSome_text?_iff, Utf8.decode_append_of_lt hb]
  simp [not_or]

end LintRunner.Bytes
