import LintRunner.Text.Visible
import Mathlib.Data.List.Basic

/-!
# Quoted text is read in one way

What is written between the quotes for one character is never the beginning of what is
written for another, and never begins with a quote. So a quoted text tells which text it
is, whatever follows it.
-/

namespace LintRunner.Text

/-! ## Numbers in hexadecimal digits -/

theorem hexDigits_eq (n : Nat) :
    hexDigits n = (if n < 16 then [] else hexDigits (n / 16)) ++ [(n % 16).digitChar] := by
  split
  · rename_i hn
    rw [Nat.mod_eq_of_lt hn]
    exact Nat.toDigits_of_lt_base hn
  · rename_i hn
    exact Nat.toDigits_of_base_le (by decide) (Nat.le_of_not_lt hn)

theorem hexDigits_injective : Function.Injective hexDigits := by
  intro m
  induction m using Nat.strongRecOn with
  | ind m ih =>
      intro n h
      rw [hexDigits_eq m, hexDigits_eq n] at h
      obtain ⟨hfront, hlast⟩ := List.append_inj' h rfl
      have hmod : m % 16 = n % 16 := by
        have hdigits : ∀ i < 16, ∀ j < 16, i.digitChar = j.digitChar → i = j := by decide
        have hpos : 0 < 16 := by decide
        exact hdigits _ (Nat.mod_lt m hpos) _ (Nat.mod_lt n hpos) (List.singleton_inj.mp hlast)
      have hdiv : m / 16 = n / 16 := by
        by_cases hm : m < 16
        · by_cases hn : n < 16
          · rw [Nat.div_eq_of_lt hm, Nat.div_eq_of_lt hn]
          · rw [if_pos hm, if_neg hn] at hfront
            exact absurd hfront.symm Nat.toDigits_ne_nil
        · by_cases hn : n < 16
          · rw [if_neg hm, if_pos hn] at hfront
            exact absurd hfront Nat.toDigits_ne_nil
          · rw [if_neg hm, if_neg hn] at hfront
            exact ih (m / 16) (by omega) hfront
      rw [← Nat.div_add_mod m 16, hdiv, hmod, Nat.div_add_mod]

theorem close_not_mem_hexDigits (n : Nat) : '\x7d' ∉ hexDigits n := by
  have hdigit : ∀ d < 16, '\x7d' ≠ d.digitChar := by decide
  induction n using Nat.strongRecOn with
  | ind n ih =>
      rw [hexDigits_eq, List.mem_append, List.mem_singleton, not_or]
      refine ⟨?_, hdigit _ (Nat.mod_lt n (by decide))⟩
      split
      · exact List.not_mem_nil
      · exact ih (n / 16) (by omega)

/-- What stands in front of the first closing brace is told from what stands behind. -/
theorem append_close_inj {front front' s t : List Char} (hfront : '\x7d' ∉ front)
    (hfront' : '\x7d' ∉ front') (h : front ++ '\x7d' :: s = front' ++ '\x7d' :: t) :
    front = front' ∧ s = t := by
  rcases List.append_eq_append_iff.mp h with ⟨more, rfl, hmore⟩ | ⟨more, rfl, hmore⟩
  · cases more with
    | nil => simpa using hmore
    | cons c more =>
        obtain ⟨rfl, -⟩ := List.cons.inj hmore
        simp at hfront'
  · cases more with
    | nil => simpa [eq_comm] using hmore
    | cons c more =>
        obtain ⟨rfl, -⟩ := List.cons.inj hmore
        simp at hfront

/-! ## Characters -/

/-- The characters that are written as a backslash and a letter, with the letter. -/
def letters : List (Char × Char) :=
  [('"', '"'), ('\\', '\\'), ('\n', 'n'), ('\t', 't'), ('\r', 'r'), ('\x00', '0')]

/-- The ways to write a character between quotes. -/
inductive WrittenAs (c : Char) : List Char → Prop
  | letter (e : Char) : (c, e) ∈ letters → WrittenAs c ['\\', e]
  | itself : c ≠ '"' → c ≠ '\\' → WrittenAs c [c]
  | number : WrittenAs c ('\\' :: 'u' :: '\x7b' :: (hexDigits c.toNat ++ ['\x7d']))

theorem writtenAs_quotedChar (c : Char) : WrittenAs c (quotedChar c) := by
  by_cases hletter : ∃ e, (c, e) ∈ letters
  · obtain ⟨e, he⟩ := hletter
    have hall : ∀ p ∈ letters, quotedChar p.1 = ['\\', p.2] := by decide
    rw [hall (c, e) he]
    exact .letter e he
  · have hnone : ∀ p ∈ letters, c ≠ p.1 := by
      intro p hp hc
      exact hletter ⟨p.2, hc ▸ hp⟩
    simp only [letters, List.forall_mem_cons] at hnone
    obtain ⟨hquote, hslash, hfeed, htab, hreturn, hnull, -⟩ := hnone
    simp only [quotedChar, beq_iff_eq, Bool.or_eq_true, hquote, hslash, hfeed, htab, hreturn,
      hnull, or_self, if_false]
    split
    · exact .itself hquote hslash
    · exact .number

namespace WrittenAs

variable {c d : Char} {text text' s t : List Char}

theorem begins (h : WrittenAs c text) : ∃ first more, text = first :: more ∧ first ≠ '"' := by
  cases h with
  | letter e _ => exact ⟨_, _, rfl, by decide⟩
  | itself hquote _ => exact ⟨_, _, rfl, hquote⟩
  | number => exact ⟨_, _, rfl, by decide⟩

/-- No way to write a character is the beginning of a way to write another one. -/
theorem append_inj (hc : WrittenAs c text) (hd : WrittenAs d text') (h : text ++ s = text' ++ t) :
    c = d ∧ s = t := by
  have hsame : ∀ x ∈ letters, ∀ y ∈ letters, x.2 = y.2 → x.1 = y.1 := by decide
  have hnumber : ∀ x ∈ letters, x.2 ≠ 'u' := by decide
  cases hc <;> cases hd <;>
    simp only [List.cons_append, List.nil_append, List.append_assoc, List.cons.injEq, true_and] at h
  case letter.letter e he e' he' =>
    obtain ⟨rfl, rfl⟩ := h
    exact ⟨hsame _ he _ he' rfl, rfl⟩
  case letter.itself hslash => exact absurd h.1.symm hslash
  case letter.number e he => exact absurd h.1 (hnumber _ he)
  case itself.letter _ hslash _ _ => exact absurd h.1 hslash
  case itself.itself => exact h
  case itself.number hslash => exact absurd h.1 hslash
  case number.letter e he => exact absurd h.1.symm (hnumber _ he)
  case number.itself hslash => exact absurd h.1.symm hslash
  case number.number =>
    obtain ⟨hdigits, rfl⟩ :=
      append_close_inj (close_not_mem_hexDigits _) (close_not_mem_hexDigits _) h
    exact ⟨Char.toNat_inj.mp (hexDigits_injective hdigits), rfl⟩

end WrittenAs

/-! ## Texts -/

theorem flatMap_quotedChar_inj {p q s t : List Char}
    (h : p.flatMap quotedChar ++ '"' :: s = q.flatMap quotedChar ++ '"' :: t) : p = q ∧ s = t := by
  induction p generalizing q with
  | nil =>
      cases q with
      | nil => exact ⟨rfl, by simpa using h⟩
      | cons d q =>
          obtain ⟨first, more, hd, hfirst⟩ := (writtenAs_quotedChar d).begins
          rw [List.flatMap_cons, hd] at h
          exact absurd (List.cons.inj h).1.symm hfirst
  | cons c p ih =>
      cases q with
      | nil =>
          obtain ⟨first, more, hc, hfirst⟩ := (writtenAs_quotedChar c).begins
          rw [List.flatMap_cons, hc] at h
          exact absurd (List.cons.inj h).1 hfirst
      | cons d q =>
          simp only [List.flatMap_cons, List.append_assoc] at h
          obtain ⟨rfl, hrest⟩ := (writtenAs_quotedChar c).append_inj (writtenAs_quotedChar d) h
          obtain ⟨rfl, hbehind⟩ := ih hrest
          exact ⟨rfl, hbehind⟩

/-- A quoted text tells which text it is and where it ends. -/
theorem quoted_append_inj {p q : String} {s t : List Char}
    (h : (quoted p).toList ++ s = (quoted q).toList ++ t) : p = q ∧ s = t := by
  simp only [quoted, String.toList_ofList, List.cons_append, List.nil_append, List.append_assoc,
    List.cons.injEq, true_and] at h
  obtain ⟨htext, hbehind⟩ := flatMap_quotedChar_inj h
  exact ⟨String.toList_inj.mp htext, hbehind⟩

theorem prefix_of_quoted_prefix {p q : String} {front text : List Char}
    (h : (quoted p).toList ++ front <+: (quoted q).toList ++ text) : p = q ∧ front <+: text := by
  obtain ⟨behind, hbehind⟩ := h
  rw [List.append_assoc] at hbehind
  obtain ⟨rfl, rfl⟩ := quoted_append_inj hbehind
  exact ⟨rfl, List.prefix_append _ _⟩

end LintRunner.Text
