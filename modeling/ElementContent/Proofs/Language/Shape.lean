import ElementContent.Proofs.Language.Reading

/-!
# Languages of the simple shapes

A content with at most one operator, or a flat mixed content, has words of a simple shape: one
letter of a few, two letters, or any letters of a few. What can be read as such a word, and what is
alive on the way, is known without an automaton.

- `Language.oneOf`, `Language.allOf`, `Language.pair`: the three shapes. Where a word is *required*,
  the empty one does not belong.
- `Language.iterate_eq_allOf`: a repetition of single letters is any sequence of them.
-/

namespace ElementContent

open List (Forall₂)

namespace Language

variable {α β : Type} {R : α → β → Prop} {a : Language α} {qs : List α} {required : Bool}
  {x y q : α} {w : List β}

/-- One of the letters, or nothing if no letter is required. -/
def oneOf (qs : List α) (required : Bool) : Language α := fun u =>
  required = false ∧ u = [] ∨ ∃ q ∈ qs, u = [q]

/-- Any sequence of the letters, but not the empty one if one is required. -/
def allOf (qs : List α) (required : Bool) : Language α := fun u =>
  (∀ q ∈ u, q ∈ qs) ∧ (required = true → u ≠ [])

/-- One letter and then another. -/
def pair (x y : α) : Language α := fun u =>
  u = [x, y]

theorem forall₂_singleton_left {s : α} : Forall₂ R [s] w ↔ ∃ t, w = [t] ∧ R s t := by
  constructor
  · intro h
    cases h with
    | cons hst h =>
      cases h with
      | nil => exact ⟨_, rfl, hst⟩
  · rintro ⟨t, rfl, hst⟩
    exact .cons hst .nil

/-! ## One letter -/

theorem image_oneOf_iff : image R (oneOf qs required) w ↔
    required = false ∧ w = [] ∨ ∃ s, w = [s] ∧ ∃ q ∈ qs, R q s := by
  constructor
  · rintro ⟨u, ⟨hr, rfl⟩ | ⟨q, hq, rfl⟩, hu⟩
    · exact .inl ⟨hr, List.forall₂_nil_left_iff.1 hu⟩
    · obtain ⟨s, rfl, hs⟩ := forall₂_singleton_left.1 hu
      exact .inr ⟨s, rfl, q, hq, hs⟩
  · rintro (⟨hr, rfl⟩ | ⟨s, rfl, q, hq, hs⟩)
    · exact ⟨[], .inl ⟨hr, rfl⟩, .nil⟩
    · exact ⟨[q], .inr ⟨q, hq, rfl⟩, .cons hs .nil⟩

theorem alive_oneOf_iff : Alive R (oneOf qs required) w q ↔ w = [] ∧ q ∈ qs := by
  constructor
  · rintro ⟨u, v, ⟨-, huv⟩ | ⟨p, hp, huv⟩, hu⟩
    · simp at huv
    · rcases List.append_eq_singleton_iff.1 huv with ⟨rfl, hqv⟩ | ⟨-, hqv⟩
      · obtain ⟨rfl, -⟩ := List.cons.inj hqv
        exact ⟨List.forall₂_nil_left_iff.1 hu, hp⟩
      · cases hqv
  · rintro ⟨rfl, hq⟩
    exact ⟨[], [], .inr ⟨q, hq, rfl⟩, .nil⟩

theorem image_prefixes_oneOf_iff (hqs : required = false ∨ qs ≠ []) :
    image R (oneOf qs required).prefixes w ↔ w = [] ∨ ∃ s, w = [s] ∧ ∃ q ∈ qs, R q s := by
  simp only [image_prefixes_iff, image_oneOf_iff, alive_oneOf_iff]
  constructor
  · rintro ((⟨-, rfl⟩ | h) | ⟨-, rfl, -⟩)
    · exact .inl rfl
    · exact .inr h
    · exact .inl rfl
  · rintro (rfl | h)
    · rcases hqs with hr | hne
      · exact .inl (.inl ⟨hr, rfl⟩)
      · obtain ⟨q, hq⟩ := List.exists_mem_of_ne_nil qs hne
        exact .inr ⟨q, rfl, hq⟩
    · exact .inl (.inr h)

/-- What is viable is a word once it has a child, or if none is required. -/
theorem image_oneOf_iff_of_viable (h : image R (oneOf qs required).prefixes w)
    (hqs : required = false ∨ qs ≠ []) :
    image R (oneOf qs required) w ↔ required = false ∨ w.length = 1 := by
  rw [image_oneOf_iff]
  rcases (image_prefixes_oneOf_iff hqs).1 h with rfl | ⟨s, rfl, hs⟩
  · simp
  · simp [hs]

/-! ## Two letters -/

theorem image_pair_iff : image R (pair x y) w ↔ ∃ s t, w = [s, t] ∧ R x s ∧ R y t := by
  constructor
  · rintro ⟨u, rfl, hu⟩
    cases hu with
    | cons hs hu =>
      obtain ⟨t, rfl, ht⟩ := forall₂_singleton_left.1 hu
      exact ⟨_, t, rfl, hs, ht⟩
  · rintro ⟨s, t, rfl, hs, ht⟩
    exact ⟨[x, y], rfl, .cons hs (.cons ht .nil)⟩

theorem alive_pair_iff :
    Alive R (pair x y) w q ↔ w = [] ∧ q = x ∨ (∃ s, w = [s] ∧ R x s) ∧ q = y := by
  constructor
  · rintro ⟨u, v, huv, hu⟩
    have huv : u ++ q :: v = [x, y] := huv
    cases u with
    | nil =>
      obtain ⟨rfl, -⟩ := List.cons.inj huv
      exact .inl ⟨List.forall₂_nil_left_iff.1 hu, rfl⟩
    | cons z u =>
      obtain ⟨rfl, huv'⟩ := List.cons.inj huv
      rcases List.append_eq_singleton_iff.1 huv' with ⟨rfl, hqv⟩ | ⟨-, hqv⟩
      · obtain ⟨rfl, -⟩ := List.cons.inj hqv
        exact .inr ⟨forall₂_singleton_left.1 hu, rfl⟩
      · cases hqv
  · rintro (⟨rfl, rfl⟩ | ⟨⟨s, rfl, hs⟩, rfl⟩)
    · exact ⟨[], [y], rfl, .nil⟩
    · exact ⟨[x], [], rfl, .cons hs .nil⟩

theorem image_prefixes_pair_iff : image R (pair x y).prefixes w ↔
    w = [] ∨ (∃ s, w = [s] ∧ R x s) ∨ ∃ s t, w = [s, t] ∧ R x s ∧ R y t := by
  simp only [image_prefixes_iff, image_pair_iff, alive_pair_iff]
  constructor
  · rintro (h | ⟨q, ⟨rfl, -⟩ | ⟨h, -⟩⟩)
    · exact .inr (.inr h)
    · exact .inl rfl
    · exact .inr (.inl h)
  · rintro (rfl | h | h)
    · exact .inr ⟨x, .inl ⟨rfl, rfl⟩⟩
    · exact .inr ⟨y, .inr ⟨h, rfl⟩⟩
    · exact .inl h

/-- What is viable is a word once it has two children. -/
theorem image_pair_iff_of_viable (h : image R (pair x y).prefixes w) :
    image R (pair x y) w ↔ w.length = 2 := by
  rw [image_pair_iff]
  rcases image_prefixes_pair_iff.1 h with rfl | ⟨s, rfl, hs⟩ | ⟨s, t, rfl, hs, ht⟩
  · simp
  · simp
  · simp [hs, ht]

/-! ## Any letters -/

theorem image_allOf_iff : image R (allOf qs required) w ↔
    (∀ s ∈ w, ∃ q ∈ qs, R q s) ∧ (required = true → w ≠ []) := by
  constructor
  · rintro ⟨u, ⟨hu, hne⟩, h⟩
    refine ⟨?_, ?_⟩
    · clear hne
      induction h with
      | nil => simp
      | @cons p s u w hps _ ih =>
        rw [List.forall_mem_cons] at hu ⊢
        exact ⟨⟨p, hu.1, hps⟩, ih hu.2⟩
    · rintro hr rfl
      exact hne hr (List.forall₂_nil_right_iff.1 h)
  · rintro ⟨hw, hne⟩
    obtain ⟨u, hu⟩ : ∃ u : List α, Forall₂ (fun p s => p ∈ qs ∧ R p s) u w := by
      obtain ⟨u, hu⟩ := exists_forall₂ (R := fun s p => p ∈ qs ∧ R p s) hw
      exact ⟨u, hu.flip⟩
    refine ⟨u, ⟨?_, ?_⟩, hu.imp fun _ _ h => h.2⟩
    · clear hw hne
      induction hu with
      | nil => simp
      | @cons p s u w hps _ ih => exact List.forall_mem_cons.2 ⟨hps.1, ih⟩
    · rintro hr rfl
      exact hne hr (List.forall₂_nil_left_iff.1 hu)

theorem alive_allOf_iff :
    Alive R (allOf qs required) w q ↔ q ∈ qs ∧ ∀ s ∈ w, ∃ p ∈ qs, R p s := by
  constructor
  · rintro ⟨u, v, ⟨huv, -⟩, hu⟩
    refine ⟨huv q (by simp), ?_⟩
    have hu' : allOf qs false u := ⟨fun p hp => huv p (List.mem_append_left _ hp), by simp⟩
    exact (image_allOf_iff.1 ⟨u, hu', hu⟩).1
  · rintro ⟨hq, hw⟩
    obtain ⟨u, ⟨hu, -⟩, h⟩ : image R (allOf qs false) w := image_allOf_iff.2 ⟨hw, by simp⟩
    refine ⟨u, [], ⟨fun p hp => ?_, fun _ => by simp⟩, h⟩
    rcases List.mem_append.1 hp with hp | hp
    · exact hu p hp
    · exact List.mem_singleton.1 hp ▸ hq

theorem image_prefixes_allOf_iff (hqs : required = false ∨ qs ≠ []) :
    image R (allOf qs required).prefixes w ↔ ∀ s ∈ w, ∃ q ∈ qs, R q s := by
  simp only [image_prefixes_iff, image_allOf_iff, alive_allOf_iff]
  constructor
  · rintro (⟨h, -⟩ | ⟨-, -, h⟩)
    · exact h
    · exact h
  · intro h
    rcases hqs with rfl | hne
    · exact .inl ⟨h, by simp⟩
    · obtain ⟨q, hq⟩ := List.exists_mem_of_ne_nil qs hne
      exact .inr ⟨q, hq, h⟩

/-- Repeating a body that has the letters for words, and no other letters in its words, gives any
sequence of the letters. If the body may be empty, then so may its repetition. -/
theorem iterate_eq_allOf {r : Quantifier} (hr : r ≠ .optional)
    (hsub : ∀ u, a u → ∀ q ∈ u, q ∈ qs) (hone : ∀ q ∈ qs, a [q]) (hnil : r = .plus → ¬ a []) :
    r.iterate a = allOf qs (decide (r = .plus)) := by
  funext u
  refine propext ⟨?_, ?_⟩
  · rintro ⟨n, hn, hu⟩
    refine ⟨?_, ?_⟩
    · clear hn
      induction n generalizing u with
      | zero =>
        obtain rfl : u = [] := hu
        simp
      | succ n ih =>
        obtain ⟨x, y, rfl, hx, hy⟩ := hu
        intro q hq
        rcases List.mem_append.1 hq with hq | hq
        · exact hsub x hx q hq
        · exact ih y hy q hq
    · intro hplus hu0
      have hplus : r = .plus := of_decide_eq_true hplus
      subst hplus
      cases n with
      | zero => exact absurd hn (by simp [Quantifier.allows])
      | succ n =>
        obtain ⟨x, y, rfl, hx, -⟩ := hu
        exact hnil rfl ((List.append_eq_nil_iff.1 hu0).1 ▸ hx)
  · rintro ⟨hu, hne⟩
    -- the body stands once for each letter
    refine ⟨u.length, ?_, ?_⟩
    · cases r with
      | optional => exact absurd rfl hr
      | star => exact trivial
      | plus => exact List.length_pos_iff.2 (hne rfl)
    · clear hne
      induction u with
      | nil => exact rfl
      | cons q u ih =>
        obtain ⟨hq, hu⟩ := List.forall_mem_cons.1 hu
        exact ⟨[q], u, rfl, hone q hq, ih hu⟩

end Language

end ElementContent
