import ElementContent.Model.Mixed
import ElementContent.Proofs.Model.Outcome

/-!
# Looking children up gives the right answers

A flat mixed content repeats a choice of text and elements. Text has no leaf number, so the words
are all sequences of the numbers of the elements, and looking a child up decides whether some number
can be read as it. A reserved symbol is the exception: it can be listed, though no leaf takes it.

- `MixedModel.Fits`: the words and the terms that a mixed model is for, and
  `MixedModel.fits_ofDeclaration?`: every declaration with a mixed model has them.
- `MixedModel.Fits.isRight_validate`, `MixedModel.Fits.isRight_expected`: the answers are right for
  children none of which is a reserved symbol that is listed.
-/

namespace ElementContent

namespace Tree

/-- There are only choices above the leaves. -/
def ChoicesOnly : Tree → Prop
  | leaf _ _ _ => True
  | group _ kind l r => kind = .choice ∧ l.ChoicesOnly ∧ r.ChoicesOnly
  | quantified _ _ _ => False

/-- A choice of leaves has the number of each for a word. -/
theorem numbered_of_choicesOnly {t : Tree} (h : t.ChoicesOnly) {n p : Nat} (hn : n ≤ p)
    (hp : p < n + t.leaves.length) : t.numbered n [p] := by
  induction t generalizing n with
  | leaf i term particle =>
    by_cases ht : term.takesChild = true
    · rw [numbered_leaf ht]
      have : p = n := by
        simp only [leaves, ht, if_true, List.length_singleton] at hp
        omega
      exact this ▸ rfl
    · simp only [leaves, if_neg ht, List.length_nil] at hp
      omega
  | group i kind l r ihl ihr =>
    obtain ⟨rfl, hl, hr⟩ := h
    have hlen : (group i .choice l r).leaves.length = l.leaves.length + r.leaves.length :=
      List.length_append
    by_cases hlt : p < n + l.leaves.length
    · exact .inl (ihl hl hn hlt)
    · exact .inr (ihr hr (by omega) (by omega))
  | quantified i q body ih => exact h.elim

end Tree

namespace MixedModel

/-- The terms are listed in order, and all the trees hold choices only. -/
theorem choiceTerms_eq_some {trees : List Tree} {before : Array Term} {terms : List Term}
    (h : choiceTerms trees before = some terms) :
    terms = before.toList ++ trees.flatMap Tree.terms ∧ ∀ t ∈ trees, t.ChoicesOnly := by
  fun_induction choiceTerms trees before with
  | case1 before =>
    obtain rfl := Option.some.inj h
    simp
  | case2 i term particle rest before ih =>
    obtain ⟨rfl, hrest⟩ := ih h
    exact ⟨by simp [Tree.terms], List.forall_mem_cons.2 ⟨trivial, hrest⟩⟩
  | case3 i left right rest before ih =>
    obtain ⟨rfl, hall⟩ := ih h
    obtain ⟨hl, hr, hrest⟩ : left.ChoicesOnly ∧ right.ChoicesOnly ∧ ∀ t ∈ rest, t.ChoicesOnly := by
      simpa using hall
    exact ⟨by simp [Tree.terms], List.forall_mem_cons.2 ⟨⟨rfl, hl, hr⟩, hrest⟩⟩
  | case4 => cases h
  | case5 => cases h

/-- The elements are the terms that take a child. -/
theorem elements?_eq_some {terms : List Term} {alternatives : List Symbol}
    (h : elements? terms = some alternatives) :
    alternatives.map .element = terms.filter Term.takesChild := by
  induction terms generalizing alternatives with
  | nil =>
    obtain rfl := Option.some.inj h
    rfl
  | cons term terms ih =>
    cases term with
    | text => exact ih h
    | element s =>
      obtain ⟨rest, hrest, rfl⟩ := Option.map_eq_some_iff.1 h
      show .element s :: rest.map .element = .element s :: terms.filter Term.takesChild
      rw [ih hrest]
    | any w => cases h
    | empty => cases h

/-- The content allows any sequence of the elements that the model lists. -/
structure Fits (m : MixedModel) (t : Tree) : Prop where
  leaves_eq : t.leaves.map (·.term) = m.alternatives.map .element
  numbered_eq : t.numbered 0 = .allOf (List.range m.alternatives.length) false

/-- A declaration with a mixed model allows any sequence of the elements. -/
theorem fits_ofDeclaration? {d : Declaration} {m : MixedModel} (h : ofDeclaration? d = some m) :
    m.Fits d.tree := by
  unfold ofDeclaration? at h
  split at h
  · next i term particle htree =>
    split at h
    · -- text alone, which leaves no room for children
      next hterm =>
      obtain rfl := Option.some.inj h
      subst hterm
      rw [htree]
      refine ⟨rfl, ?_⟩
      funext u
      show (u = []) = ((∀ q ∈ u, q ∈ []) ∧ (false = true → u ≠ []))
      simp [List.eq_nil_iff_forall_not_mem]
    · cases h
  · next i body htree =>
    obtain ⟨terms, hterms, h⟩ := Option.bind_eq_some_iff.1 h
    unfold ofTerms? at h
    split at h
    · -- a repeated choice, whose words of one letter are the numbers of its elements
      obtain ⟨alternatives, halt, rfl⟩ := Option.map_eq_some_iff.1 h
      obtain ⟨rfl, hchoices⟩ := choiceTerms_eq_some hterms
      have hbody := hchoices body (List.mem_singleton_self body)
      have hleaves : body.leaves.map (·.term) = alternatives.map .element := by
        rw [Tree.map_term_leaves, elements?_eq_some halt]
        simp
      have hlen : body.leaves.length = alternatives.length := by
        simpa using congrArg List.length hleaves
      rw [htree]
      refine ⟨hleaves, ?_⟩
      show Quantifier.star.iterate (body.numbered 0) =
        .allOf (List.range alternatives.length) (decide (Quantifier.star = .plus))
      refine Language.iterate_eq_allOf (by decide) (fun u hu p hp => ?_) (fun p hp => ?_)
        (by simp)
      · obtain ⟨x, y, rfl⟩ := List.append_of_mem hp
        have := (Tree.occurs_numbered ⟨x, y, hu⟩).2
        exact List.mem_range.2 (by omega)
      · exact Tree.numbered_of_choicesOnly hbody (Nat.zero_le p)
          (by have := List.mem_range.1 hp; omega)
    · cases h
  · cases h

variable {m : MixedModel} {t : Tree} {w : List Symbol}

/-- A child that is listed can be read from a number, unless it is a reserved symbol. -/
theorem Fits.contains_iff (h : m.Fits t) {s : Symbol}
    (hs : s.isReserved = true → s ∉ m.alternatives) : m.alternatives.contains s = true ↔
      ∃ p ∈ List.range m.alternatives.length, TakesAt t.leaves p s := by
  simp only [takesAt_iff, h.leaves_eq, List.getElem?_map, Option.map_eq_some_iff]
  rw [List.contains_iff_mem]
  constructor
  · intro hmem
    obtain ⟨p, hp, rfl⟩ := List.getElem_of_mem hmem
    refine ⟨p, List.mem_range.2 hp, _, ⟨_, List.getElem?_eq_getElem hp, rfl⟩, ?_⟩
    have hs : m.alternatives[p].isReserved = false :=
      Bool.eq_false_iff.2 fun hres => hs hres hmem
    simp [Term.accepts, hs]
  · rintro ⟨p, -, -, ⟨a, ha, rfl⟩, haccepts⟩
    simp only [Term.accepts, Bool.and_eq_true, beq_iff_eq] at haccepts
    exact haccepts.2 ▸ List.mem_of_getElem? ha

theorem Fits.isRight_validate (h : m.Fits t)
    (hw : ∀ s ∈ w, s.isReserved = true → s ∉ m.alternatives) :
    (m.validate w).IsRight (TakesAt t.leaves) (t.numbered 0) w := by
  rw [h.numbered_eq]
  exact Verdict.isRight_ofAll (fun s hs => h.contains_iff (hw s hs)) (by simp)

theorem filterMap_getElem?_range {α : Type} (l : List α) :
    (List.range l.length).filterMap (l[·]?) = l := by
  induction l with
  | nil => rfl
  | cons x l ih =>
    rw [List.length_cons, List.range_succ_eq_map, List.filterMap_cons,
      List.filterMap_map]
    exact congrArg (x :: ·) ih

theorem Fits.isRight_expected (h : m.Fits t)
    (hw : ∀ s ∈ w, s.isReserved = true → s ∉ m.alternatives) :
    Expectation.IsRight t.leaves (t.numbered 0) w (m.expected w) := by
  have hverdict := h.isRight_validate hw
  rw [h.numbered_eq] at hverdict ⊢
  have hviable : Language.image (TakesAt t.leaves)
      (Language.allOf (List.range m.alternatives.length) false).prefixes w ↔ _ :=
    Language.image_prefixes_allOf_iff (.inl rfl)
  unfold expected
  cases hv : m.validate w with
  | valid =>
    rw [hv] at hverdict
    have hall := (Language.image_allOf_iff.1 hverdict).1
    refine ⟨hviable.2 hall, List.range m.alternatives.length, true, List.pairwise_lt_range,
      fun p => ?_, iff_of_true rfl hverdict, ?_⟩
    · rw [Language.alive_allOf_iff]
      exact (and_iff_left hall).symm
    · congr 1
      simp only [← List.getElem?_map, h.leaves_eq]
      have := filterMap_getElem?_range (m.alternatives.map Term.element)
      rw [List.length_map] at this
      exact this.symm
  | failsAt i =>
    rw [hv] at hverdict
    exact fun hall => hverdict.1 (Language.image_allOf_iff.2 ⟨hviable.1 hall, by simp⟩)

end MixedModel

end ElementContent
