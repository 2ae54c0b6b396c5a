import ElementContent.Proofs.Language.Adjacent

/-!
# Repetition by number

A quantifier lets its body stand some number of times, and so do occurrence bounds. Bounds are
spelled out with copies that stand one after the other, so the numbers that the parts allow add up.

- `Language.times`: the words made of some number of words; which numbers is given.
- `Language.concat`: the words of several languages, one after the other.
- `Language.IsSum`, `Language.append_times`: one number of words after another.
- `Language.optional_times`: a number of words that may be missing.
-/

namespace ElementContent

namespace Language

variable {α : Type} {a b c : Language α} {p p' q q' : Nat → Prop}

/-- The words made of as many words of the language as the condition lets stand. -/
def times (a : Language α) (p : Nat → Prop) : Language α := fun w =>
  ∃ n, p n ∧ a.power n w

/-- The words of the languages, one after the other. -/
def concat : List (Language α) → Language α
  | [] => fun w => w = []
  | a :: as => append a (concat as)

/-- The number is the sum of a number that one condition lets stand and one that the other does. -/
def IsSum (p p' : Nat → Prop) (n : Nat) : Prop :=
  ∃ i j, p i ∧ p' j ∧ n = i + j

/-! ## One after the other -/

theorem append_assoc : append (append a b) c = append a (append b c) := by
  funext w
  refine propext ⟨?_, ?_⟩
  · rintro ⟨-, z, rfl, ⟨x, y, rfl, hx, hy⟩, hz⟩
    exact ⟨x, y ++ z, List.append_assoc x y z, hx, y, z, rfl, hy, hz⟩
  · rintro ⟨x, -, rfl, hx, y, z, rfl, hy, hz⟩
    exact ⟨x ++ y, z, (List.append_assoc x y z).symm, ⟨x, y, rfl, hx, hy⟩, hz⟩

theorem combine_assoc (kind : GroupKind) :
    kind.combine (kind.combine a b) c = kind.combine a (kind.combine b c) := by
  cases kind with
  | sequence => exact append_assoc
  | choice => exact funext fun w => propext or_assoc

theorem concat_nil_append : append (concat []) a = a := by
  funext w
  refine propext ⟨?_, fun hw => ⟨[], w, rfl, rfl, hw⟩⟩
  rintro ⟨-, y, rfl, rfl, hy⟩
  exact hy

theorem append_concat_nil : append a (concat []) = a := by
  funext w
  refine propext ⟨?_, fun hw => ⟨w, [], (List.append_nil w).symm, hw, rfl⟩⟩
  rintro ⟨x, -, rfl, hx, rfl⟩
  rwa [List.append_nil]

theorem concat_append (as bs : List (Language α)) :
    concat (as ++ bs) = append (concat as) (concat bs) := by
  induction as with
  | nil => exact concat_nil_append.symm
  | cons a as ih =>
    show append a (concat (as ++ bs)) = append (append a (concat as)) (concat bs)
    rw [ih, append_assoc]

/-! ## Numbers of words -/

theorem power_add_eq (m n : Nat) : a.power (m + n) = append (a.power m) (a.power n) := by
  induction m with
  | zero =>
    rw [Nat.zero_add]
    exact concat_nil_append.symm
  | succ m ih =>
    rw [Nat.succ_add]
    show append a (a.power (m + n)) = append (append a (a.power m)) (a.power n)
    rw [ih, append_assoc]

theorem times_congr (h : ∀ n, p n ↔ p' n) : a.times p = a.times p' := by
  rw [show p = p' from funext fun n => propext (h n)]

theorem times_zero : a.times (· = 0) = concat [] := by
  funext w
  exact propext exists_eq_left

theorem times_one : a.times (· = 1) = a := by
  funext w
  exact propext (exists_eq_left.trans power_one)

/-- A quantifier repeats its body by number. -/
theorem iterate_eq_times (q : Quantifier) : q.iterate a = a.times q.allows :=
  rfl

/-- The numbers that two parts let stand add up. -/
theorem append_times : append (a.times p) (a.times p') = a.times (IsSum p p') := by
  funext w
  refine propext ⟨?_, ?_⟩
  · rintro ⟨x, y, rfl, ⟨i, hi, hx⟩, j, hj, hy⟩
    exact ⟨i + j, ⟨i, j, hi, hj, rfl⟩, power_add hx hy⟩
  · rintro ⟨-, ⟨i, j, hi, hj, rfl⟩, hw⟩
    rw [power_add_eq] at hw
    obtain ⟨x, y, rfl, hx, hy⟩ := hw
    exact ⟨x, y, rfl, ⟨i, hi, hx⟩, j, hj, hy⟩

/-- What may be missing may stand no time at all. -/
theorem optional_times :
    Quantifier.optional.iterate (a.times p) = a.times fun n => n = 0 ∨ p n := by
  funext w
  refine propext ⟨?_, ?_⟩
  · rintro ⟨k, hk, hw⟩
    cases k with
    | zero => exact ⟨0, .inl rfl, hw⟩
    | succ k =>
      obtain rfl : k = 0 := Nat.le_zero.1 (Nat.le_of_succ_le_succ hk)
      obtain ⟨n, hn, hw⟩ := power_one.1 hw
      exact ⟨n, .inr hn, hw⟩
  · rintro ⟨n, rfl | hn, hw⟩
    · exact ⟨0, Nat.zero_le 1, hw⟩
    · exact iterate_of_mem .optional ⟨n, hn, hw⟩

/-! ## Sums -/

theorem isSum_eq_eq {m k n : Nat} : IsSum (· = m) (· = k) n ↔ n = m + k := by
  simp [IsSum]

theorem isSum_eq_le {m k n : Nat} : IsSum (· = m) (· ≤ k) n ↔ m ≤ n ∧ n ≤ m + k := by
  constructor
  · rintro ⟨-, j, rfl, hj, rfl⟩
    exact ⟨Nat.le_add_right _ _, Nat.add_le_add_left hj _⟩
  · rintro ⟨hm, hn⟩
    exact ⟨m, n - m, rfl, by omega, by omega⟩

theorem isSum_eq_ge {m k n : Nat} : IsSum (· = m) (k ≤ ·) n ↔ m + k ≤ n := by
  constructor
  · rintro ⟨-, j, rfl, hj, rfl⟩
    exact Nat.add_le_add_left hj _
  · intro hn
    exact ⟨m, n - m, rfl, by omega, by omega⟩

theorem IsSum.congr (hp : ∀ n, p n ↔ q n) (hp' : ∀ n, p' n ↔ q' n) (n : Nat) :
    IsSum p p' n ↔ IsSum q q' n := by
  simp only [IsSum, hp, hp']

end Language

end ElementContent
