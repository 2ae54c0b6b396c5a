/-!
# Texts that can be read back

The texts of values are written one after the other, with separators and brackets between them. A
value can be *read back* if its text, with whatever may follow it, is the text of no other value, and
if it is known where it ends.

- `ReadsBack`: the value can be read back, if a character follows that may.
- `readsBack_toDigits`: a number can be read back, if no digit follows; `toDigits_append_ne` says that
  it begins with a digit.
- `eq_of_intercalate_append_eq`: values that can be read back can be read back in a row, if the
  separator is not the closing character.
-/

namespace ElementContent

/-- The text goes on with a character that may come next, or not at all. -/
def GoesOn (next : Char → Prop) (r : List Char) : Prop :=
  ∀ c cs, r = c :: cs → next c

/-- Where the text of the value is followed by a character that may come next, it is the text of no
other value and ends where it is seen to end. -/
def ReadsBack {α : Type} (code : α → List Char) (valid : α → Prop) (next : Char → Prop) (a : α) :
    Prop :=
  ∀ b r r', valid b → GoesOn next r → GoesOn next r' → code a ++ r = code b ++ r' → a = b ∧ r = r'

variable {α : Type} {code : α → List Char} {valid : α → Prop} {next : Char → Prop} {a b : α}
  {as bs : List α} {r r' : List Char} {c sep close : Char}

theorem goesOn_nil : GoesOn next [] :=
  fun _ _ h => nomatch h

theorem goesOn_cons (h : next c) : GoesOn next (c :: r) := by
  rintro _ _ ⟨⟩
  exact h

theorem GoesOn.mono {next' : Char → Prop} (h : GoesOn next r) (hnext : ∀ c, next c → next' c) :
    GoesOn next' r :=
  fun c cs hr => hnext c (h c cs hr)

/-! ## Numbers -/

/-- The digits of a number are the longest beginning that consists of digits. -/
theorem takeWhile_toDigits (n : Nat) (h : GoesOn (fun c => c.isDigit = false) r) :
    (Nat.toDigits 10 n ++ r).takeWhile Char.isDigit = Nat.toDigits 10 n := by
  have hdigits : ∀ c ∈ Nat.toDigits 10 n, c.isDigit = true := fun c hc =>
    Nat.isDigit_of_mem_toDigits (by decide) (by decide) hc
  rw [List.takeWhile_append_of_pos hdigits]
  cases r with
  | nil => simp
  | cons c cs => simp [h c cs rfl]

/-- A number begins with a digit. -/
theorem toDigits_append_ne (n : Nat) (hc : c.isDigit = false) : Nat.toDigits 10 n ++ r ≠ c :: r' := by
  intro h
  cases hdigits : Nat.toDigits 10 n with
  | nil => exact Nat.toDigits_ne_nil hdigits
  | cons c' cs =>
    have hmem : c' ∈ Nat.toDigits 10 n := hdigits ▸ List.mem_cons_self
    rw [hdigits, List.cons_append] at h
    rw [← (List.cons.inj h).1, Nat.isDigit_of_mem_toDigits (by decide) (by decide) hmem] at hc
    cases hc

theorem readsBack_toDigits (n : Nat) :
    ReadsBack (Nat.toDigits 10) (fun _ => True) (fun c => c.isDigit = false) n := by
  intro m r r' _ hr hr' h
  have hdigits : Nat.toDigits 10 n = Nat.toDigits 10 m := by
    rw [← takeWhile_toDigits n hr, h, takeWhile_toDigits m hr']
  have hnm : n = m := by
    rw [← Nat.ofDigitChars_ten_toDigits (n := n), hdigits, Nat.ofDigitChars_ten_toDigits]
  subst hnm
  exact ⟨rfl, List.append_cancel_left h⟩

/-! ## Rows -/

/-- What comes after the first of several texts. -/
theorem intercalate_cons (sep : Char) (x : List Char) (xs : List (List Char)) :
    [sep].intercalate (x :: xs) = x ++ xs.flatMap (sep :: ·) := by
  induction xs generalizing x with
  | nil => simp
  | cons y ys ih =>
    rw [List.intercalate_cons_cons, ih, List.flatMap_cons, List.append_assoc]
    rfl

theorem intercalate_append (sep : Char) (x y : List Char) (xs ys : List (List Char)) :
    [sep].intercalate (x :: xs ++ y :: ys) =
      [sep].intercalate (x :: xs) ++ sep :: [sep].intercalate (y :: ys) := by
  rw [List.cons_append, intercalate_cons, intercalate_cons, intercalate_cons, List.flatMap_append,
    List.flatMap_cons, List.append_assoc]
  rfl

/-- After a value comes a separator or the closing character. -/
theorem goesOn_flatMap (hsep : next sep) (hclose : next close) (as : List α) (r : List Char) :
    GoesOn next (as.flatMap (fun a => sep :: code a) ++ close :: r) := by
  cases as with
  | nil => exact goesOn_cons hclose
  | cons a as => exact goesOn_cons hsep

section Rows

variable (hne : sep ≠ close) (hsep : next sep) (hclose : next close)
  (has : ∀ a ∈ as, ReadsBack code valid next a) (hbs : ∀ b ∈ bs, valid b)

include hne hsep hclose has hbs

/-- Values each of which comes after a separator can be read back up to the closing character. -/
theorem eq_of_flatMap_append_eq (h : as.flatMap (fun a => sep :: code a) ++ close :: r =
    bs.flatMap (fun b => sep :: code b) ++ close :: r') : as = bs ∧ r = r' := by
  induction as generalizing bs with
  | nil =>
    cases bs with
    | nil => exact ⟨rfl, (List.cons.inj h).2⟩
    | cons b bs => exact absurd (List.cons.inj h).1.symm hne
  | cons a as ih =>
    cases bs with
    | nil => exact absurd (List.cons.inj h).1 hne
    | cons b bs =>
      obtain ⟨ha, has⟩ := List.forall_mem_cons.1 has
      obtain ⟨hb, hbs⟩ := List.forall_mem_cons.1 hbs
      simp only [List.flatMap_cons, List.append_assoc, List.cons_append, List.cons.injEq,
        true_and] at h
      obtain ⟨hab, hrest⟩ := ha b _ _ hb (goesOn_flatMap hsep hclose as r)
        (goesOn_flatMap hsep hclose bs r') h
      obtain ⟨hrow, hr⟩ := ih has hbs hrest
      exact ⟨by rw [hab, hrow], hr⟩

/-- Values in a row can be read back up to the closing character, if there are any. -/
theorem eq_of_intercalate_append_eq (ha : ReadsBack code valid next a) (hb : valid b)
    (h : [sep].intercalate ((a :: as).map code) ++ close :: r =
      [sep].intercalate ((b :: bs).map code) ++ close :: r') : a :: as = b :: bs ∧ r = r' := by
  rw [List.map_cons, intercalate_cons, List.flatMap_map, List.map_cons, intercalate_cons,
    List.flatMap_map, List.append_assoc, List.append_assoc] at h
  obtain ⟨hab, hrest⟩ := ha b _ _ hb (goesOn_flatMap hsep hclose as r)
    (goesOn_flatMap hsep hclose bs r') h
  obtain ⟨hrow, hr⟩ := eq_of_flatMap_append_eq hne hsep hclose has hbs hrest
  exact ⟨by rw [hab, hrow], hr⟩

end Rows

end ElementContent
