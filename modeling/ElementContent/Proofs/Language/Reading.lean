import ElementContent.Proofs.Language.Local
import Mathlib.Data.List.Forall2

/-!
# Reading words letter by letter

The words of a content are written in one alphabet (the positions of its leaves, or their terms)
and read in another (the children of an element). A relation says which letters may be read as
which.

- `Language.image`: the words that can be read as a word of a language. The operators of a content
  commute with reading (`Language.image_combine`, `Language.image_iterate`).
- `Language.prefixes`: the beginnings of words. What can be read as a beginning is *viable*.
- `Language.Alive`: a letter is alive after some input if it may be the next one to be read.
- `Language.alive_concat_iff`: in a local language the letters that are alive after one more input
  are known from those that were alive before it. This is the step that an automaton makes.
-/

namespace ElementContent

open List (Forall₂)

namespace Language

variable {α β : Type} {R : α → β → Prop} {a b : Language α}

/-- The words that can be read, letter by letter, as a word of the language. -/
def image (R : α → β → Prop) (a : Language α) : Language β := fun w =>
  ∃ u, a u ∧ Forall₂ R u w

/-- The beginnings of the words of the language. -/
def prefixes (a : Language α) : Language α := fun u =>
  ∃ v, a (u ++ v)

/-- The letter may be the next one, after a beginning that can be read as the input. -/
def Alive (R : α → β → Prop) (a : Language α) (w : List β) (p : α) : Prop :=
  ∃ u v, a (u ++ p :: v) ∧ Forall₂ R u w

theorem Alive.occurs {w : List β} {p : α} (h : Alive R a w p) : a.Occurs p := by
  obtain ⟨u, v, huv, -⟩ := h
  exact ⟨u, v, huv⟩

/-! ## Cutting what is read -/

theorem forall₂_append_right {u : List α} {w w' : List β} (h : Forall₂ R u (w ++ w')) :
    ∃ v v', u = v ++ v' ∧ Forall₂ R v w ∧ Forall₂ R v' w' :=
  ⟨u.take w.length, u.drop w.length, (List.take_append_drop _ _).symm,
    List.forall₂_take_append u w w' h, List.forall₂_drop_append u w w' h⟩

theorem forall₂_append_left {u u' : List α} {w : List β} (h : Forall₂ R (u ++ u') w) :
    ∃ v v', w = v ++ v' ∧ Forall₂ R u v ∧ Forall₂ R u' v' := by
  obtain ⟨v, v', hw, hv, hv'⟩ := forall₂_append_right h.flip
  exact ⟨v, v', hw, hv.flip, hv'.flip⟩

theorem forall₂_concat_right {u : List α} {w : List β} {s : β} (h : Forall₂ R u (w ++ [s])) :
    ∃ v p, u = v ++ [p] ∧ Forall₂ R v w ∧ R p s := by
  obtain ⟨v, v', rfl, hv, hv'⟩ := forall₂_append_right h
  cases hv' with
  | cons hps hnil =>
    cases hnil with
    | nil => exact ⟨v, _, rfl, hv, hps⟩

theorem forall₂_concat {u : List α} {w : List β} {p : α} {s : β} (h : Forall₂ R u w)
    (hps : R p s) : Forall₂ R (u ++ [p]) (w ++ [s]) :=
  List.rel_append h (.cons hps .nil)

/-- A word can be read if each of its letters can. -/
theorem exists_forall₂ {u : List α} (h : ∀ p ∈ u, ∃ s, R p s) : ∃ w, Forall₂ R u w := by
  induction u with
  | nil => exact ⟨[], .nil⟩
  | cons p u ih =>
    obtain ⟨s, hs⟩ := h p List.mem_cons_self
    obtain ⟨w, hw⟩ := ih fun q hq => h q (List.mem_cons_of_mem p hq)
    exact ⟨s :: w, .cons hs hw⟩

/-! ## Reading and the operators -/

theorem image_append : image R (append a b) = append (image R a) (image R b) := by
  funext w
  refine propext ⟨?_, ?_⟩
  · rintro ⟨-, ⟨u, u', rfl, hu, hu'⟩, h⟩
    obtain ⟨v, v', rfl, hv, hv'⟩ := forall₂_append_left h
    exact ⟨v, v', rfl, ⟨u, hu, hv⟩, u', hu', hv'⟩
  · rintro ⟨v, v', rfl, ⟨u, hu, hv⟩, u', hu', hv'⟩
    exact ⟨u ++ u', ⟨u, u', rfl, hu, hu'⟩, List.rel_append hv hv'⟩

theorem image_union : image R (union a b) = union (image R a) (image R b) := by
  funext w
  refine propext ⟨?_, ?_⟩
  · rintro ⟨u, hu | hu, h⟩
    · exact .inl ⟨u, hu, h⟩
    · exact .inr ⟨u, hu, h⟩
  · rintro (⟨u, hu, h⟩ | ⟨u, hu, h⟩)
    · exact ⟨u, .inl hu, h⟩
    · exact ⟨u, .inr hu, h⟩

theorem image_combine (kind : GroupKind) :
    image R (kind.combine a b) = kind.combine (image R a) (image R b) := by
  cases kind with
  | sequence => exact image_append
  | choice => exact image_union

theorem image_power (n : Nat) : image R (a.power n) = (image R a).power n := by
  induction n with
  | zero =>
    funext w
    refine propext ⟨?_, ?_⟩
    · rintro ⟨u, rfl, h⟩
      exact List.forall₂_nil_left_iff.1 h
    · rintro rfl
      exact ⟨[], rfl, .nil⟩
  | succ n ih =>
    show image R (append a (a.power n)) = append (image R a) ((image R a).power n)
    rw [image_append, ih]

theorem image_iterate (r : Quantifier) : image R (r.iterate a) = r.iterate (image R a) := by
  funext w
  refine propext ⟨?_, ?_⟩
  · rintro ⟨u, ⟨n, hn, hu⟩, h⟩
    refine ⟨n, hn, ?_⟩
    rw [← image_power]
    exact ⟨u, hu, h⟩
  · rintro ⟨n, hn, h⟩
    rw [← image_power] at h
    obtain ⟨u, hu, h⟩ := h
    exact ⟨u, ⟨n, hn, hu⟩, h⟩

/-- The beginnings of what is read are what is read of beginnings, if every letter can be read. -/
theorem prefixes_image (h : ∀ p, a.Occurs p → ∃ s, R p s) :
    (image R a).prefixes = image R a.prefixes := by
  funext w
  refine propext ⟨?_, ?_⟩
  · rintro ⟨x, u, hu, hux⟩
    obtain ⟨v, v', rfl, hv, -⟩ := forall₂_append_right hux
    exact ⟨v, ⟨v', hu⟩, hv⟩
  · rintro ⟨u, ⟨v, huv⟩, hu⟩
    -- the rest of the word is read as whatever its letters allow
    have hread : ∀ p ∈ v, ∃ s, R p s := by
      intro p hp
      obtain ⟨s, t, rfl⟩ := List.append_of_mem hp
      exact h p ⟨u ++ s, t, by simpa using huv⟩
    obtain ⟨x, hx⟩ := exists_forall₂ hread
    exact ⟨x, u ++ v, huv, List.rel_append hu hx⟩

/-! ## What is alive -/

/-- What can be read as a beginning can be read as a word, or else it leaves a letter alive. -/
theorem image_prefixes_iff {w : List β} :
    image R a.prefixes w ↔ image R a w ∨ ∃ p, Alive R a w p := by
  constructor
  · rintro ⟨u, ⟨v, huv⟩, hu⟩
    cases v with
    | nil => exact .inl ⟨u, by simpa using huv, hu⟩
    | cons p v => exact .inr ⟨p, u, v, huv, hu⟩
  · rintro (⟨u, hu, h⟩ | ⟨p, u, v, huv, h⟩)
    · exact ⟨u, ⟨[], by simpa using hu⟩, h⟩
    · exact ⟨u, ⟨p :: v, huv⟩, h⟩

theorem image_prefixes_of_image {w : List β} (h : image R a w) : image R a.prefixes w :=
  image_prefixes_iff.2 (.inl h)

/-- The beginnings of what is viable are viable. -/
theorem image_prefixes_of_append {w w' : List β} (h : image R a.prefixes (w ++ w')) :
    image R a.prefixes w := by
  obtain ⟨u, ⟨v, huv⟩, h⟩ := h
  obtain ⟨x, x', rfl, hx, -⟩ := forall₂_append_right h
  exact ⟨x, ⟨x' ++ v, by simpa using huv⟩, hx⟩

theorem image_prefixes_take (n : Nat) {w : List β} (h : image R a.prefixes w) :
    image R a.prefixes (w.take n) := by
  rw [← List.take_append_drop n w] at h
  exact image_prefixes_of_append h

theorem alive_nil_iff {p : α} : Alive R a [] p ↔ a.Begins p := by
  constructor
  · rintro ⟨u, v, huv, hu⟩
    obtain rfl := List.forall₂_nil_right_iff.1 hu
    exact ⟨v, huv⟩
  · rintro ⟨v, hv⟩
    exact ⟨[], v, hv, .nil⟩

/-- In a local language, what is alive after one more input comes directly after a letter that was
alive before it and can be read as it. -/
theorem alive_concat_iff (ha : a.IsLocal) {w : List β} {s : β} {q : α} :
    Alive R a (w ++ [s]) q ↔ ∃ p, Alive R a w p ∧ R p s ∧ a.Adjacent p q := by
  constructor
  · rintro ⟨u, v, huv, h⟩
    obtain ⟨x, p, rfl, hx, hps⟩ := forall₂_concat_right h
    have hxv : a (x ++ p :: q :: v) := by simpa using huv
    exact ⟨p, ⟨x, q :: v, hxv, hx⟩, hps, x, v, hxv⟩
  · rintro ⟨p, ⟨u, v, huv, hu⟩, hps, u', v', huv'⟩
    -- the word read so far is crossed with the one where the next letter follows
    exact ⟨u ++ [p], v', by simpa using ha huv huv', forall₂_concat hu hps⟩

/-! ## A mark behind every word -/

/-- Behind a mark, what is alive is alive in the language, or else it is the mark and the input can
be read as a word. -/
theorem alive_append_letter_iff :
    (append a (letter x)).Alive R w q ↔ a.Alive R w q ∨ q = x ∧ a.image R w := by
  constructor
  · rintro ⟨u, v, ⟨y, z, hyz, hy, hz⟩, hu⟩
    have hz : z = [x] := hz
    subst hz
    -- the letter stands in the word, or it is the mark, with the whole word before it
    rcases append_cons_eq_append hyz with ⟨y', rfl, -⟩ | ⟨y', rfl, hx⟩
    · exact .inl ⟨u, y', hy, hu⟩
    · cases y' with
      | nil =>
        obtain ⟨rfl, -⟩ := List.cons.inj hx
        rw [List.append_nil] at hu
        exact .inr ⟨rfl, y, hy, hu⟩
      | cons c y' => simp at hx
  · rintro (⟨u, v, huv, hu⟩ | ⟨rfl, u, hu, hw⟩)
    · exact ⟨u, v ++ [x], ⟨u ++ q :: v, [x], by simp, huv, rfl⟩, hu⟩
    · exact ⟨u, [], ⟨u, [q], rfl, hu, rfl⟩, hw⟩

/-- What is viable leaves a letter or the mark alive. -/
theorem image_prefixes_iff_alive_append_letter (x : α) :
    a.prefixes.image R w ↔ ∃ q, (append a (letter x)).Alive R w q := by
  simp only [image_prefixes_iff, alive_append_letter_iff]
  constructor
  · rintro (h | ⟨p, hp⟩)
    · exact ⟨x, .inr ⟨rfl, h⟩⟩
    · exact ⟨p, .inl hp⟩
  · rintro ⟨q, hq | ⟨-, h⟩⟩
    · exact .inr ⟨q, hq⟩
    · exact .inl h

end Language

end ElementContent
