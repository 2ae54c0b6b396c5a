import ElementContent.Content.Language

/-!
# Which letters begin, end and follow

Four facts about the letters of a language decide what an automaton that looks at one letter at a
time may do: whether the empty word belongs, which letters begin a word, which end one, and which
come directly after which. This module computes these facts for the operators of a content from the
facts about the operands.

- `Language.Begins`, `Language.Ends`, `Language.Adjacent`: the facts, read off the words.
- `Language.begins_append`, `Language.adjacent_append`, …: one part after the other. Each operand
  must have a word at all, for a word of one side shows only with a word of the other beside it.
- `Language.begins_iterate`, `Language.ends_iterate`, `Language.adjacent_iterate`: repetition. Only
  a quantifier that lets its body stand twice joins the ends of the body to its beginnings.
-/

namespace ElementContent

namespace Language

variable {α : Type} {a b : Language α} {p q x : α}

/-- Some word begins with the letter. -/
def Begins (a : Language α) (p : α) : Prop :=
  ∃ v, a (p :: v)

/-- Some word ends with the letter. -/
def Ends (a : Language α) (p : α) : Prop :=
  ∃ u, a (u ++ [p])

/-- In some word the second letter comes directly after the first. -/
def Adjacent (a : Language α) (p q : α) : Prop :=
  ∃ u v, a (u ++ p :: q :: v)

/-- The letter stands in some word. -/
def Occurs (a : Language α) (p : α) : Prop :=
  ∃ u v, a (u ++ p :: v)

theorem Begins.occurs (h : a.Begins p) : a.Occurs p := by
  obtain ⟨v, hv⟩ := h
  exact ⟨[], v, hv⟩

theorem Ends.occurs (h : a.Ends p) : a.Occurs p := by
  obtain ⟨u, hu⟩ := h
  exact ⟨u, [], hu⟩

theorem Adjacent.occurs_right (h : a.Adjacent p q) : a.Occurs q := by
  obtain ⟨u, v, huv⟩ := h
  exact ⟨u ++ [p], v, by simpa using huv⟩

/-- A letter of a word that is cut in two stands in the first part or in the second. -/
theorem append_cons_eq_append {u v x y : List α} (h : u ++ p :: v = x ++ y) :
    (∃ z, x = u ++ p :: z ∧ v = z ++ y) ∨ ∃ z, u = x ++ z ∧ y = z ++ p :: v := by
  rcases List.append_eq_append_iff.1 h with ⟨z, hx, hz⟩ | ⟨z, hu, hy⟩
  · cases z with
    | nil => exact .inr ⟨[], by simpa using hx.symm, hz.symm⟩
    | cons c z =>
      obtain ⟨rfl, hv⟩ := List.cons.inj hz
      exact .inl ⟨z, hx, hv⟩
  · exact .inr ⟨z, hu, hy⟩

/-! ## One letter -/

/-- The word of one letter. -/
def letter (x : α) : Language α := fun w =>
  w = [x]

theorem exists_letter (x : α) : ∃ w, letter x w :=
  ⟨[x], rfl⟩

theorem begins_letter : (letter x).Begins p ↔ p = x := by
  simp [Begins, letter]

theorem occurs_letter : (letter x).Occurs p ↔ p = x := by
  constructor
  · rintro ⟨u, v, huv⟩
    have huv : u ++ p :: v = [x] := huv
    have hp : p ∈ [x] := huv ▸ List.mem_append_right u List.mem_cons_self
    exact List.mem_singleton.1 hp
  · rintro rfl
    exact ⟨[], [], rfl⟩

theorem not_adjacent_letter : ¬ (letter x).Adjacent p q := by
  rintro ⟨u, v, huv⟩
  have huv : u ++ p :: q :: v = [x] := huv
  have := congrArg List.length huv
  simp only [List.length_append, List.length_cons, List.length_nil] at this
  omega

/-! ## One part after the other -/

theorem append_nil_iff : append a b [] ↔ a [] ∧ b [] := by
  constructor
  · rintro ⟨u, v, huv, hu, hv⟩
    obtain ⟨rfl, rfl⟩ := List.append_eq_nil_iff.1 huv.symm
    exact ⟨hu, hv⟩
  · rintro ⟨ha, hb⟩
    exact ⟨[], [], rfl, ha, hb⟩

theorem occurs_append (h : (append a b).Occurs p) : a.Occurs p ∨ b.Occurs p := by
  obtain ⟨u, v, x, y, hxy, hx, hy⟩ := h
  rcases append_cons_eq_append hxy with ⟨z, rfl, -⟩ | ⟨z, -, rfl⟩
  · exact .inl ⟨u, z, hx⟩
  · exact .inr ⟨z, v, hy⟩

theorem begins_append (hb : ∃ w, b w) :
    (append a b).Begins p ↔ a.Begins p ∨ a [] ∧ b.Begins p := by
  constructor
  · rintro ⟨v, x, y, hxy, hx, hy⟩
    cases x with
    | nil =>
      obtain rfl : p :: v = y := hxy
      exact .inr ⟨hx, v, hy⟩
    | cons c x =>
      obtain ⟨rfl, -⟩ := List.cons.inj hxy
      exact .inl ⟨x, hx⟩
  · rintro (⟨v, hv⟩ | ⟨ha, v, hv⟩)
    · obtain ⟨w, hw⟩ := hb
      exact ⟨v ++ w, p :: v, w, rfl, hv, hw⟩
    · exact ⟨v, [], p :: v, rfl, ha, hv⟩

theorem ends_append (ha : ∃ w, a w) :
    (append a b).Ends p ↔ b.Ends p ∨ b [] ∧ a.Ends p := by
  constructor
  · rintro ⟨u, x, y, hxy, hx, hy⟩
    rcases append_cons_eq_append hxy with ⟨z, rfl, hz⟩ | ⟨z, -, rfl⟩
    · obtain ⟨rfl, rfl⟩ := List.append_eq_nil_iff.1 hz.symm
      exact .inr ⟨hy, u, hx⟩
    · exact .inl ⟨z, hy⟩
  · rintro (⟨u, hu⟩ | ⟨hb, u, hu⟩)
    · obtain ⟨w, hw⟩ := ha
      exact ⟨w ++ u, w, u ++ [p], by simp, hw, hu⟩
    · exact ⟨u, u ++ [p], [], by simp, hu, hb⟩

theorem adjacent_append (ha : ∃ w, a w) (hb : ∃ w, b w) :
    (append a b).Adjacent p q ↔ a.Adjacent p q ∨ b.Adjacent p q ∨ a.Ends p ∧ b.Begins q := by
  constructor
  · rintro ⟨u, v, x, y, hxy, hx, hy⟩
    rcases append_cons_eq_append hxy with ⟨z, rfl, hz⟩ | ⟨z, -, rfl⟩
    · -- the first letter stands in the left part; the second opens what is left of it, or the right
      cases z with
      | nil => exact .inr (.inr ⟨⟨u, hx⟩, v, by simpa [hz] using hy⟩)
      | cons c z =>
        obtain ⟨rfl, -⟩ := List.cons.inj hz
        exact .inl ⟨u, z, hx⟩
    · exact .inr (.inl ⟨z, v, hy⟩)
  · rintro (⟨u, v, huv⟩ | ⟨u, v, huv⟩ | ⟨⟨u, hu⟩, v, hv⟩)
    · obtain ⟨w, hw⟩ := hb
      exact ⟨u, v ++ w, u ++ p :: q :: v, w, by simp, huv, hw⟩
    · obtain ⟨w, hw⟩ := ha
      exact ⟨w ++ u, v, w, u ++ p :: q :: v, by simp, hw, huv⟩
    · exact ⟨u, v, u ++ [p], q :: v, by simp, hu, hv⟩

/-! ## Either part -/

theorem occurs_union (h : (union a b).Occurs p) : a.Occurs p ∨ b.Occurs p := by
  obtain ⟨u, v, h | h⟩ := h
  · exact .inl ⟨u, v, h⟩
  · exact .inr ⟨u, v, h⟩

/-- A letter of the words of a group is one of its parts. -/
theorem occurs_combine {kind : GroupKind} (h : (kind.combine a b).Occurs p) :
    a.Occurs p ∨ b.Occurs p := by
  cases kind with
  | sequence => exact occurs_append h
  | choice => exact occurs_union h

theorem begins_union : (union a b).Begins p ↔ a.Begins p ∨ b.Begins p :=
  exists_or

theorem ends_union : (union a b).Ends p ↔ a.Ends p ∨ b.Ends p :=
  exists_or

theorem adjacent_union : (union a b).Adjacent p q ↔ a.Adjacent p q ∨ b.Adjacent p q := by
  constructor
  · rintro ⟨u, v, h | h⟩
    · exact .inl ⟨u, v, h⟩
    · exact .inr ⟨u, v, h⟩
  · rintro (⟨u, v, h⟩ | ⟨u, v, h⟩)
    · exact ⟨u, v, .inl h⟩
    · exact ⟨u, v, .inr h⟩

/-! ## Repetition -/

@[simp] theorem power_one {w : List α} : a.power 1 w ↔ a w := by
  constructor
  · rintro ⟨u, v, rfl, hu, rfl⟩
    simpa using hu
  · intro h
    exact ⟨w, [], by simp, h, rfl⟩

/-- Repeated words may be put one after the other. -/
theorem power_add {m n : Nat} {u v : List α} (hu : a.power m u) (hv : a.power n v) :
    a.power (m + n) (u ++ v) := by
  induction m generalizing u with
  | zero =>
    obtain rfl : u = [] := hu
    simpa using hv
  | succ m ih =>
    obtain ⟨x, y, rfl, hx, hy⟩ := hu
    rw [Nat.succ_add]
    exact ⟨x, y ++ v, by simp, hx, ih hy⟩

/-- A letter of a repeated word stands in one of the words that are repeated, with the same number
of words before it and after it. -/
theorem power_split {n : Nat} {u v : List α} (h : a.power n (u ++ p :: v)) :
    ∃ i j x y x' y', n = i + 1 + j ∧ u = x ++ y ∧ v = x' ++ y' ∧
      a.power i x ∧ a (y ++ p :: x') ∧ a.power j y' := by
  induction n generalizing u with
  | zero => exact absurd h (by simp [power])
  | succ n ih =>
    obtain ⟨s, t, hst, hs, ht⟩ := h
    -- the letter stands in the first of the words or in a later one
    rcases append_cons_eq_append hst with ⟨z, rfl, rfl⟩ | ⟨z, rfl, rfl⟩
    · exact ⟨0, n, [], u, z, t, by omega, rfl, rfl, rfl, hs, ht⟩
    · obtain ⟨i, j, x, y, x', y', rfl, rfl, rfl, hx, hy, hy'⟩ := ih ht
      refine ⟨i + 1, j, s ++ x, y, x', y', by omega, by simp, rfl, ?_, hy, hy'⟩
      exact ⟨s, x, rfl, hs, hx⟩

theorem occurs_iterate {r : Quantifier} (h : (r.iterate a).Occurs p) : a.Occurs p := by
  obtain ⟨u, v, n, -, hn⟩ := h
  obtain ⟨-, -, x, y, x', -, -, -, -, -, hy, -⟩ := power_split hn
  exact ⟨y, x', hy⟩

/-- Every quantifier lets its body stand once. -/
theorem iterate_of_mem (r : Quantifier) {w : List α} (h : a w) : r.iterate a w :=
  ⟨1, by cases r <;> simp [Quantifier.allows], power_one.2 h⟩

theorem iterate_nil_iff {r : Quantifier} : r.iterate a [] ↔ r ≠ .plus ∨ a [] := by
  constructor
  · rintro ⟨n, hn, hw⟩
    cases n with
    | zero => exact .inl fun hr => by simp [hr, Quantifier.allows] at hn
    | succ n => exact .inr (append_nil_iff.1 hw).1
  · rintro (hr | ha)
    · exact ⟨0, by cases r <;> simp_all [Quantifier.allows], rfl⟩
    · exact iterate_of_mem r ha

theorem begins_iterate {r : Quantifier} : (r.iterate a).Begins p ↔ a.Begins p := by
  constructor
  · rintro ⟨v, n, -, hn⟩
    -- nothing stands before the letter, so it opens its own word
    obtain ⟨-, -, x, y, x', -, -, hu, -, -, hy, -⟩ := power_split (u := []) hn
    obtain ⟨-, rfl⟩ := List.append_eq_nil_iff.1 hu.symm
    exact ⟨x', hy⟩
  · rintro ⟨v, hv⟩
    exact ⟨v, iterate_of_mem r hv⟩

theorem ends_iterate {r : Quantifier} : (r.iterate a).Ends p ↔ a.Ends p := by
  constructor
  · rintro ⟨u, n, -, hn⟩
    obtain ⟨-, -, x, y, x', y', -, -, hv, -, hy, -⟩ := power_split hn
    obtain ⟨rfl, -⟩ := List.append_eq_nil_iff.1 hv.symm
    exact ⟨y, hy⟩
  · rintro ⟨u, hu⟩
    exact ⟨u, iterate_of_mem r hu⟩

theorem adjacent_iterate {r : Quantifier} :
    (r.iterate a).Adjacent p q ↔ a.Adjacent p q ∨ r ≠ .optional ∧ a.Ends p ∧ a.Begins q := by
  constructor
  · rintro ⟨u, v, n, hn, hw⟩
    obtain ⟨i, j, x, y, x', y', rfl, rfl, hv, hx, hy, hy'⟩ := power_split hw
    cases x' with
    | cons c x' =>
      obtain ⟨rfl, -⟩ := List.cons.inj hv
      exact .inl ⟨y, x', hy⟩
    | nil =>
      -- the first letter ends its word, so the second begins a later one and there are two
      obtain rfl : y' = q :: v := by simpa using hv.symm
      obtain ⟨k, l, s, t, t', -, rfl, hs, -, -, ht, -⟩ := power_split (u := []) hy'
      obtain ⟨-, rfl⟩ := List.append_eq_nil_iff.1 hs.symm
      refine .inr ⟨?_, ⟨y, hy⟩, t', ht⟩
      rintro rfl
      have : i + 1 + (k + 1 + l) ≤ 1 := hn
      omega
  · rintro (⟨u, v, h⟩ | ⟨hr, ⟨u, hu⟩, v, hv⟩)
    · exact ⟨u, v, iterate_of_mem r h⟩
    · refine ⟨u, v, 2, by cases r <;> simp_all [Quantifier.allows], ?_⟩
      have := power_add (power_one.2 hu) (power_one.2 hv)
      simpa using this

end Language

end ElementContent
