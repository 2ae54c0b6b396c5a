import ElementContent.Proofs.Text.Blank
import ElementContent.Text.Numeral

/-!
# Which texts are numerals

The reader of numerals goes over the digits once and stops at the first character that is none. What
it accepts is said here without it, by the digits and by the number that the standard library gives
for them.

- `IsNumeral`: a text is a numeral for a number.
- `word?_eq_some_iff`: the reader accepts the numerals for numbers of 32 bits.
- `isNumeral_toString`: a number written in decimal is a numeral for it.
- `IsNumeral.trim_eq_iff`: blanks may stand around a numeral and not at its ends.
-/

namespace ElementContent

/-- The text is a numeral for the number: one or more ASCII digits, with a plus sign before them or
not. -/
def IsNumeral (cs : List Char) (n : Nat) : Prop :=
  ∃ digits, (cs = digits ∨ cs = '+' :: digits) ∧ digits ≠ [] ∧
    (∀ c ∈ digits, c.isDigit = true) ∧ Nat.ofDigitChars 10 digits 0 = n

variable {c : Char} {cs ds : List Char} {n : Nat}

/-! ## Digits -/

theorem digit?_eq (c : Char) :
    digit? c = if c.isDigit = true then some (c.toNat - '0'.toNat) else none := by
  have hdigit : '0' ≤ c ∧ c ≤ '9' ↔ c.isDigit = true := by
    rw [Char.isDigit, Bool.and_eq_true, decide_eq_true_iff, decide_eq_true_iff]
    exact Iff.rfl
  simp only [digit?, hdigit]

theorem digitsFrom?_eq_some_iff {value : Nat} : digitsFrom? value cs = some n ↔
    (∀ c ∈ cs, c.isDigit = true) ∧ Nat.ofDigitChars 10 cs value = n := by
  induction cs generalizing value with
  | nil => simp [digitsFrom?]
  | cons c cs ih =>
    rw [digitsFrom?, digit?_eq]
    by_cases hc : c.isDigit = true
    · simp only [hc, if_true, ih, List.forall_mem_cons, true_and, Nat.ofDigitChars_cons]
    · simp [hc]

theorem digitsValue?_eq_some_iff : digitsValue? cs = some n ↔
    cs ≠ [] ∧ (∀ c ∈ cs, c.isDigit = true) ∧ Nat.ofDigitChars 10 cs 0 = n := by
  cases cs with
  | nil => simp [digitsValue?]
  | cons c cs => simp only [digitsValue?, digitsFrom?_eq_some_iff, ne_eq, reduceCtorEq,
      not_false_eq_true, true_and]

/-- A numeral is known by what follows the plus sign, if there is one. -/
theorem isNumeral_iff : IsNumeral cs n ↔ digitsValue? (unsigned cs) = some n := by
  rw [digitsValue?_eq_some_iff]
  constructor
  · rintro ⟨digits, rfl | rfl, hne, hdigits, hn⟩
    · -- a digit is no plus sign
      have hunsigned : unsigned cs = cs := by
        unfold unsigned
        split
        · next rest => cases hdigits '+' List.mem_cons_self
        · rfl
      rw [hunsigned]
      exact ⟨hne, hdigits, hn⟩
    · exact ⟨hne, hdigits, hn⟩
  · rintro ⟨hne, hdigits, hn⟩
    refine ⟨unsigned cs, ?_, hne, hdigits, hn⟩
    unfold unsigned
    split
    · exact .inr rfl
    · exact .inl rfl

/-- The reader accepts the numerals whose value fits into a word. -/
theorem word?_eq_some_iff {w : UInt32} : word? cs = some w ↔ IsNumeral cs w.toNat := by
  rw [isNumeral_iff, word?]
  cases digitsValue? (unsigned cs) with
  | none => simp
  | some n =>
    by_cases hn : n < UInt32.size
    · simp only [if_pos hn, Option.some.injEq]
      constructor
      · rintro rfl
        rw [UInt32.toNat_ofNat_of_lt' hn]
      · rintro rfl
        exact UInt32.ofNat_toNat
    · simp only [if_neg hn, Option.some.injEq, reduceCtorEq, false_iff]
      rintro rfl
      exact hn w.toNat_lt

/-- A number written in decimal is a numeral for it. -/
theorem isNumeral_toString (n : Nat) : IsNumeral (toString n).toList n := by
  have hlist : (toString n).toList = Nat.toDigits 10 n := Nat.toList_repr
  rw [hlist]
  exact ⟨_, .inl rfl, Nat.toDigits_ne_nil,
    fun c hc => Nat.isDigit_of_mem_toDigits (by decide) (by decide) hc,
    Nat.ofDigitChars_ten_toDigits⟩

/-! ## Blanks around numerals -/

theorem isBlank_of_isDigit (h : c.isDigit = true) : isBlank c = false := by
  obtain ⟨hlow, hhigh⟩ : 48 ≤ c.toNat ∧ c.toNat ≤ 57 := by
    rw [Char.isDigit, Bool.and_eq_true, decide_eq_true_iff, decide_eq_true_iff] at h
    exact h
  rw [Bool.eq_false_iff]
  intro hblank
  simp only [isBlank, Bool.or_eq_true, Bool.and_eq_true, decide_eq_true_eq, beq_iff_eq] at hblank
  omega

theorem IsNumeral.not_isBlank (h : IsNumeral cs n) (hc : c ∈ cs) : isBlank c = false := by
  obtain ⟨digits, rfl | rfl, -, hdigits, -⟩ := h
  · exact isBlank_of_isDigit (hdigits c hc)
  · rcases List.mem_cons.1 hc with rfl | hc
    · rfl
    · exact isBlank_of_isDigit (hdigits c hc)

/-- A numeral is what trimming leaves of it with blanks around it. -/
theorem IsNumeral.trim_eq_iff (h : IsNumeral ds n) : trim cs = ds ↔ IsPadded cs ds :=
  ElementContent.trim_eq_iff (fun _ hc => h.not_isBlank (List.mem_of_mem_head? hc))
    fun _ hc => h.not_isBlank (List.mem_of_mem_getLast? hc)

/-- A text with blanks around it is read as the numeral that they surround. -/
theorem word?_trim_eq_some_iff {w : UInt32} : word? (trim cs) = some w ↔
    ∃ ds, IsPadded cs ds ∧ IsNumeral ds w.toNat := by
  rw [word?_eq_some_iff]
  constructor
  · exact fun h => ⟨_, isPadded_trim cs, h⟩
  · rintro ⟨ds, hpadded, h⟩
    rwa [h.trim_eq_iff.2 hpadded]

end ElementContent
