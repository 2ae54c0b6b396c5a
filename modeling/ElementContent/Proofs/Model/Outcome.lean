import ElementContent.Model.Expectation
import ElementContent.Model.Verdict
import ElementContent.Proofs.Language.Shape
import ElementContent.Proofs.Position.Numbered

/-!
# What a model has to answer

What a model of a content is to say of children follows from the words of leaf numbers that the
content allows and from the leaves, without regard to how the model is made. There is one right
verdict and one right expectation, so two models that are right say the same.

- `Verdict.IsRight`: the children are a word, or else the place of the failure is as far as a
  beginning of them is viable.
- `Expectation.IsRight`: where the children are viable, the terms of the leaves that are alive after
  them are listed, and the end is allowed if the children are a word.
- `Expectation.isRight_of_verdict`: what is said after children that are valid or end too early.
- `Verdict.isRight_unique`, `Expectation.isRight_unique`: there is one right answer.
-/

namespace ElementContent

variable {α : Type} {R : α → Symbol → Prop} {a : Language α} {w : List Symbol}

namespace Verdict

/-- The verdict that a content calls for: children that can be read as a word are valid, all others
fail at the end of the longest beginning that is viable. -/
def IsRight (R : α → Symbol → Prop) (a : Language α) (w : List Symbol) : Verdict → Prop
  | valid => a.image R w
  | failsAt i => ¬ a.image R w ∧ i ≤ w.length ∧
      ∀ n ≤ w.length, a.prefixes.image R (w.take n) ↔ n ≤ i

/-- The beginning before the failure is viable, and one child more is not. -/
theorem isRight_failsAt {i : Nat} (hw : ¬ a.image R w) (hi : i ≤ w.length)
    (hviable : a.prefixes.image R (w.take i))
    (hstop : i < w.length → ¬ a.prefixes.image R (w.take (i + 1))) :
    IsRight R a w (failsAt i) := by
  have hmono : ∀ {m n : Nat}, m ≤ n → a.prefixes.image R (w.take n) →
      a.prefixes.image R (w.take m) := by
    intro m n hmn h
    have := Language.image_prefixes_take m h
    rwa [List.take_take, Nat.min_eq_left hmn] at this
  refine ⟨hw, hi, fun n hn => ⟨fun h => ?_, fun h => hmono h hviable⟩⟩
  refine Nat.le_of_not_lt ?_
  intro hlt
  exact hstop (Nat.lt_of_lt_of_le hlt hn) (hmono hlt h)

/-- There is one right verdict. -/
theorem isRight_unique {v v' : Verdict} (h : IsRight R a w v) (h' : IsRight R a w v') : v = v' := by
  cases v with
  | valid =>
    cases v' with
    | valid => rfl
    | failsAt j => exact absurd h h'.1
  | failsAt i =>
    cases v' with
    | valid => exact absurd h' h.1
    | failsAt j =>
      obtain ⟨-, hi, hiff⟩ := h
      obtain ⟨-, hj, hiff'⟩ := h'
      have hij : i ≤ j := (hiff' i hi).1 ((hiff i hi).2 (Nat.le_refl i))
      have hji : j ≤ i := (hiff j hj).1 ((hiff' j hj).2 (Nat.le_refl j))
      rw [Nat.le_antisymm hij hji]

/-- Where any sequence of some letters is a word, the children fail at the first one that none of
the letters can be read as. If a letter is required, there must be some children. -/
theorem isRight_ofAll {qs : List α} {required : Bool} {p : Symbol → Bool}
    (hp : ∀ s ∈ w, p s = true ↔ ∃ q ∈ qs, R q s)
    (hreq : required = true → w ≠ [] ∧ qs ≠ []) :
    IsRight R (.allOf qs required) w (ofAll p w) := by
  unfold ofAll
  cases hfind : w.findIdx? (fun s => !p s) with
  | none =>
    refine Language.image_allOf_iff.2 ⟨fun s hs => (hp s hs).1 ?_, fun hr => (hreq hr).1⟩
    simpa using List.findIdx?_eq_none_iff.1 hfind s hs
  | some i =>
    obtain ⟨hi, hbad, hgood⟩ := List.findIdx?_eq_some_iff_getElem.1 hfind
    have hbad : ¬ p w[i] = true := by simpa using hbad
    have hqs : required = false ∨ qs ≠ [] := by
      cases required with
      | false => exact .inl rfl
      | true => exact .inr (hreq rfl).2
    have hviable : ∀ v, Language.image R (Language.allOf qs required).prefixes v ↔
        ∀ s ∈ v, ∃ q ∈ qs, R q s := fun v => Language.image_prefixes_allOf_iff hqs
    refine isRight_failsAt (fun hw => ?_) (Nat.le_of_lt hi) ?_ fun _ hstop => ?_
    · have hmem := List.getElem_mem hi
      exact hbad ((hp _ hmem).2 ((Language.image_allOf_iff.1 hw).1 _ hmem))
    · refine (hviable _).2 ?_
      intro s hs
      obtain ⟨j, hj, rfl⟩ := List.mem_take_iff_getElem.1 hs
      have hj : j < i := by omega
      exact (hp _ (List.getElem_mem _)).1 (by simpa using hgood j hj)
    · refine hbad ((hp _ (List.getElem_mem hi)).2 ((hviable _).1 hstop _ ?_))
      exact List.mem_take_iff_getElem.2 ⟨i, by omega, rfl⟩

end Verdict

namespace Expectation

/-- The terms of the leaves that are alive are listed in the order of the leaves, and the end is
allowed if the children are a word. -/
def Lists (leaves : List Leaf) (a : Language Nat) (w : List Symbol) (e : Expectation) : Prop :=
  ∃ (live : List Nat) (ends : Bool), live.Pairwise (· < ·) ∧
    (∀ p, p ∈ live ↔ a.Alive (TakesAt leaves) w p) ∧
    (ends = true ↔ a.image (TakesAt leaves) w) ∧
    e = ofTerms (live.filterMap fun p => (leaves[p]?).map (·.term)) ends

/-- What a content lets follow: nothing is said where the children are not viable. -/
def IsRight (leaves : List Leaf) (a : Language Nat) (w : List Symbol) :
    Option Expectation → Prop
  | none => ¬ a.prefixes.image (TakesAt leaves) w
  | some e => a.prefixes.image (TakesAt leaves) w ∧ e.Lists leaves a w

/-- There is one right expectation. -/
theorem isRight_unique {leaves : List Leaf} {a : Language Nat} {e e' : Option Expectation}
    (h : IsRight leaves a w e) (h' : IsRight leaves a w e') : e = e' := by
  cases e with
  | none =>
    cases e' with
    | none => rfl
    | some e' => exact absurd h'.1 h
  | some e =>
    cases e' with
    | none => exact absurd h.1 h'
    | some e' =>
      obtain ⟨-, live, ends, hlive, halive, hends, rfl⟩ := h
      obtain ⟨-, live', ends', hlive', halive', hends', rfl⟩ := h'
      obtain rfl : live = live' :=
        PositionSet.eq_of_ascending hlive hlive' fun p => (halive p).trans (halive' p).symm
      obtain rfl : ends = ends' := Bool.eq_iff_iff.2 (hends.trans hends'.symm)
      rfl

/-- An answer that is given just where the children are valid or end too early is right if it lists
what is alive. -/
theorem isRight_of_verdict {leaves : List Leaf} {a : Language Nat} {v : Verdict}
    {e : Option Expectation} (hv : v.IsRight (TakesAt leaves) a w)
    (hnone : ∀ i, v = .failsAt i → i ≠ w.length → e = none)
    (hsome : (∀ i, v = .failsAt i → i = w.length) → a.prefixes.image (TakesAt leaves) w →
      ∃ e', e = some e' ∧ e'.Lists leaves a w) : IsRight leaves a w e := by
  have hviable : (∀ i, v = .failsAt i → i = w.length) → a.prefixes.image (TakesAt leaves) w := by
    intro hlen
    cases v with
    | valid => exact Language.image_prefixes_of_image hv
    | failsAt i =>
      have := (hv.2.2 w.length (Nat.le_refl _)).2 (Nat.le_of_eq (hlen i rfl).symm)
      rwa [List.take_length] at this
  by_cases hlen : ∀ i, v = .failsAt i → i = w.length
  · obtain ⟨e', rfl, he⟩ := hsome hlen (hviable hlen)
    exact ⟨hviable hlen, he⟩
  · simp only [not_forall] at hlen
    obtain ⟨i, rfl, hi⟩ := hlen
    rw [hnone i rfl hi]
    intro hw
    have := (hv.2.2 w.length (Nat.le_refl _)).1 (by rwa [List.take_length])
    exact hi (Nat.le_antisymm hv.2.1 this)

end Expectation

end ElementContent
