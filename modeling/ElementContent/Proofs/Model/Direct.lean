import ElementContent.Model.Direct
import ElementContent.Proofs.Model.Outcome

/-!
# Direct checks give the right answers

A direct model reads its terms off the nodes at the root and never looks at the rest. Its three ways
of checking are right for three shapes of words: one of some letters, two letters, and any sequence
of a letter.

- `DirectModel.Fits`: the shapes of contents that are checked directly, and
  `DirectModel.fits_ofDeclaration?`: no others are.
- `DirectModel.words`: the words of leaf numbers for each of the shapes.
- `DirectModel.isRight_validate`, `DirectModel.isRight_expected`: the answers are right.
-/

namespace ElementContent

namespace DirectModel

/-! ## Shapes -/

/-- The content has the shape that the model is for. -/
inductive Fits : DirectModel → Tree → Prop
  | single {i : Nat} {term : Term} {particle : Option Nat} : term.takesChild = true →
    Fits (.single term) (.leaf i term particle)
  | quantified {i j : Nat} {q : Quantifier} {term : Term} {particle : Option Nat} :
    term.takesChild = true → Fits (.quantified q term) (.quantified i q (.leaf j term particle))
  | group {i j k : Nat} {kind : GroupKind} {left right : Term} {p p' : Option Nat} :
    left.takesChild = true → right.takesChild = true →
    Fits (.group kind left right) (.group i kind (.leaf j left p) (.leaf k right p'))

theorem childTerm?_eq_some {d : Declaration} {i : Nat} {term : Term}
    (h : childTerm? d i = some term) :
    term.takesChild = true ∧ ∃ particle, d.trees[i]? = some (.leaf i term particle) := by
  unfold childTerm? at h
  split at h
  · next term' particle hn =>
    split at h
    · next ht =>
      obtain rfl := Option.some.inj h
      exact ⟨ht, particle, d.getElem?_trees_leaf hn⟩
    · cases h
  · cases h

/-- A declaration with a direct model has the shape that the model is for. -/
theorem fits_ofDeclaration? {d : Declaration} {m : DirectModel} (h : ofDeclaration? d = some m) :
    m.Fits d.tree := by
  have hroot := d.getElem?_trees_root
  unfold ofDeclaration? at h
  split at h
  · obtain ⟨term, hterm, rfl⟩ := Option.map_eq_some_iff.1 h
    obtain ⟨ht, particle, htree⟩ := childTerm?_eq_some hterm
    rw [Option.some.inj (hroot.symm.trans htree)]
    exact .single ht
  · next q body hn =>
    obtain ⟨term, hterm, rfl⟩ := Option.map_eq_some_iff.1 h
    obtain ⟨ht, particle, hbody⟩ := childTerm?_eq_some hterm
    rw [Option.some.inj (hroot.symm.trans (d.getElem?_trees_quantified hn hbody))]
    exact .quantified ht
  · next kind l r hn =>
    obtain ⟨left, hleft, h⟩ := Option.bind_eq_some_iff.1 h
    obtain ⟨right, hright, h⟩ := Option.bind_eq_some_iff.1 h
    obtain rfl := Option.some.inj h
    obtain ⟨hl, p, hltree⟩ := childTerm?_eq_some hleft
    obtain ⟨hr, p', hrtree⟩ := childTerm?_eq_some hright
    rw [Option.some.inj (hroot.symm.trans (d.getElem?_trees_group hn hltree hrtree))]
    exact .group hl hr
  · cases h

/-- The terms, left to right. -/
def terms : DirectModel → List Term
  | single term | quantified _ term => [term]
  | group _ left right => [left, right]

/-- The words of leaf numbers that the shape of a model allows. -/
def words : DirectModel → Language Nat
  | single _ => .oneOf [0] true
  | quantified .optional _ => .oneOf [0] false
  | quantified .star _ => .allOf [0] false
  | quantified .plus _ => .allOf [0] true
  | group .sequence _ _ => .pair 0 1
  | group .choice _ _ => .oneOf [0, 1] true

theorem letter_eq_oneOf (n : Nat) : Language.letter n = .oneOf [n] true := by
  funext u
  simp [Language.letter, Language.oneOf]

theorem optional_letter (n : Nat) : Quantifier.optional.iterate (.letter n) = .oneOf [n] false := by
  funext u
  refine propext ⟨?_, ?_⟩
  · rintro ⟨k, hk, hu⟩
    cases k with
    | zero => exact .inl ⟨rfl, hu⟩
    | succ k =>
      obtain rfl : k = 0 := Nat.le_zero.1 (Nat.le_of_succ_le_succ hk)
      have hu : Language.letter n u := Language.power_one.1 hu
      exact .inr ⟨n, List.mem_singleton_self n, hu⟩
  · rintro (⟨-, rfl⟩ | ⟨p, hp, rfl⟩)
    · exact ⟨0, Nat.zero_le 1, rfl⟩
    · obtain rfl := List.mem_singleton.1 hp
      have hp : Language.letter p [p] := rfl
      exact ⟨1, Nat.le_refl 1, Language.power_one.2 hp⟩

theorem iterate_letter {q : Quantifier} {n : Nat} (hq : q ≠ .optional) :
    q.iterate (.letter n) = .allOf [n] (decide (q = .plus)) := by
  refine Language.iterate_eq_allOf hq (fun u hu => ?_) (fun p hp => ?_) (fun _ hnil => ?_)
  · obtain rfl : u = [n] := hu
    exact fun p hp => hp
  · exact List.mem_singleton.1 hp ▸ rfl
  · cases hnil

theorem append_letter (m n : Nat) : Language.append (.letter m) (.letter n) = .pair m n := by
  funext u
  refine propext ⟨?_, ?_⟩
  · rintro ⟨x, y, rfl, rfl, rfl⟩
    rfl
  · rintro rfl
    exact ⟨[m], [n], rfl, rfl, rfl⟩

theorem union_letter (m n : Nat) : Language.union (.letter m) (.letter n) = .oneOf [m, n] true := by
  funext u
  simp [Language.union, Language.letter, Language.oneOf]

variable {m : DirectModel} {t : Tree}

/-- The words of a content that a model fits. -/
theorem Fits.numbered_eq (h : m.Fits t) : t.numbered 0 = m.words := by
  cases h with
  | single ht => rw [Tree.numbered_leaf ht, letter_eq_oneOf, words]
  | @quantified i j q term particle ht =>
    show q.iterate ((Tree.leaf j term particle).numbered 0) = _
    rw [Tree.numbered_leaf ht]
    cases q with
    | optional => exact optional_letter 0
    | star => exact iterate_letter (by decide)
    | plus => exact iterate_letter (by decide)
  | @group i j k kind left right p p' hl hr =>
    have hone : 0 + (Tree.leaf j left p).leaves.length = 1 := by simp [Tree.leaves, hl]
    show kind.combine _ (Tree.numbered _ (0 + (Tree.leaf j left p).leaves.length)) = _
    rw [hone, Tree.numbered_leaf hl, Tree.numbered_leaf hr]
    cases kind with
    | sequence => exact append_letter 0 1
    | choice => exact union_letter 0 1

theorem Fits.leaves_eq (h : m.Fits t) : t.leaves.map (·.term) = m.terms := by
  cases h with
  | single ht => simp [Tree.leaves, ht, terms]
  | quantified ht => simp [Tree.leaves, ht, terms]
  | group hl hr => simp [Tree.leaves, hl, hr, terms]

theorem Fits.termCount_eq (h : m.Fits t) : m.termCount = t.leaves.length := by
  rw [← List.length_map (f := (·.term)), h.leaves_eq]
  cases m <;> rfl

/-! ## Verdicts -/

variable {α : Type} {R : α → Symbol → Prop}

theorem isRight_validateOne {qs : List α} {required : Bool} {p : Symbol → Bool}
    (hp : ∀ s, p s = true ↔ ∃ q ∈ qs, R q s) (hqs : required = false ∨ qs ≠ [])
    (w : List Symbol) : (validateOne p required w).IsRight R (.oneOf qs required) w := by
  have himage : ∀ v, Language.image R (.oneOf qs required) v ↔
      required = false ∧ v = [] ∨ ∃ s, v = [s] ∧ p s = true := by
    simp only [Language.image_oneOf_iff, hp, implies_true]
  have hviable : ∀ v, Language.image R (Language.oneOf qs required).prefixes v ↔
      v = [] ∨ ∃ s, v = [s] ∧ p s = true := by
    simp only [Language.image_prefixes_oneOf_iff hqs, hp, implies_true]
  have hstart : Language.image R (Language.oneOf qs required).prefixes [] :=
    (hviable _).2 (.inl rfl)
  cases w with
  | nil =>
    cases required with
    | false => exact (himage _).2 (.inl ⟨rfl, rfl⟩)
    | true => exact Verdict.isRight_failsAt (by simp [himage]) (Nat.le_refl 0) hstart (by simp)
  | cons s rest =>
    by_cases hs : p s = true
    · have hone : Language.image R (Language.oneOf qs required).prefixes [s] :=
        (hviable _).2 (.inr ⟨s, rfl, hs⟩)
      cases rest with
      | nil =>
        rw [show validateOne p required [s] = .valid by simp [validateOne, hs]]
        exact (himage _).2 (.inr ⟨s, rfl, hs⟩)
      | cons s' rest =>
        -- a second child is one too many
        rw [show validateOne p required (s :: s' :: rest) = .failsAt 1 by simp [validateOne, hs]]
        exact Verdict.isRight_failsAt (by simp [himage]) (by simp) hone (by simp [hviable])
    · have hs : p s = false := Bool.eq_false_iff.2 hs
      rw [show validateOne p required (s :: rest) = .failsAt 0 by simp [validateOne, hs]]
      exact Verdict.isRight_failsAt (by simp [himage, hs]) (Nat.zero_le _) hstart
        (by simp [hviable, hs])

theorem isRight_validatePair {left right : Term} {x y : α}
    (hx : ∀ s, left.accepts s = true ↔ R x s) (hy : ∀ s, right.accepts s = true ↔ R y s)
    (w : List Symbol) : (validatePair left right w).IsRight R (.pair x y) w := by
  have himage : ∀ v, Language.image R (.pair x y) v ↔
      ∃ s t, v = [s, t] ∧ left.accepts s = true ∧ right.accepts t = true := by
    simp only [Language.image_pair_iff, hx, hy, implies_true]
  have hviable : ∀ v, Language.image R (Language.pair x y).prefixes v ↔
      v = [] ∨ (∃ s, v = [s] ∧ left.accepts s = true) ∨
        ∃ s t, v = [s, t] ∧ left.accepts s = true ∧ right.accepts t = true := by
    simp only [Language.image_prefixes_pair_iff, hx, hy, implies_true]
  have hstart : Language.image R (Language.pair x y).prefixes [] := (hviable _).2 (.inl rfl)
  cases w with
  | nil => exact Verdict.isRight_failsAt (by simp [himage]) (Nat.le_refl 0) hstart (by simp)
  | cons s rest =>
    by_cases hs : left.accepts s = true
    · have hone : Language.image R (Language.pair x y).prefixes [s] :=
        (hviable _).2 (.inr (.inl ⟨s, rfl, hs⟩))
      cases rest with
      | nil =>
        rw [show validatePair left right [s] = .failsAt 1 by simp [validatePair, hs]]
        exact Verdict.isRight_failsAt (by simp [himage]) (Nat.le_refl 1) hone (by simp)
      | cons t rest =>
        by_cases ht : right.accepts t = true
        · cases rest with
          | nil =>
            rw [show validatePair left right [s, t] = .valid by simp [validatePair, hs, ht]]
            exact (himage _).2 ⟨s, t, rfl, hs, ht⟩
          | cons t' rest =>
            -- a third child is one too many
            rw [show validatePair left right (s :: t :: t' :: rest) = .failsAt 2 by
              simp [validatePair, hs, ht]]
            exact Verdict.isRight_failsAt (by simp [himage]) (by simp)
              ((hviable _).2 (.inr (.inr ⟨s, t, rfl, hs, ht⟩))) (by simp [hviable])
        · have ht : right.accepts t = false := Bool.eq_false_iff.2 ht
          rw [show validatePair left right (s :: t :: rest) = .failsAt 1 by
            simp [validatePair, hs, ht]]
          exact Verdict.isRight_failsAt (by simp [himage, ht]) (by simp) hone
            (by simp [hviable, ht])
    · have hs : left.accepts s = false := Bool.eq_false_iff.2 hs
      rw [show validatePair left right (s :: rest) = .failsAt 0 by simp [validatePair, hs]]
      exact Verdict.isRight_failsAt (by simp [himage, hs]) (Nat.zero_le _) hstart
        (by simp [hviable, hs])

theorem Fits.isRight_validate (h : m.Fits t) (w : List Symbol) :
    (m.validate w).IsRight (TakesAt t.leaves) (t.numbered 0) w := by
  rw [h.numbered_eq]
  have htakes : ∀ p s, TakesAt t.leaves p s ↔
      ∃ term, m.terms[p]? = some term ∧ term.accepts s = true := by
    intro p s
    rw [takesAt_iff, h.leaves_eq]
  cases m with
  | single term => exact isRight_validateOne (by simp [htakes, terms]) (.inr (by simp)) w
  | quantified q term =>
    have hone : ∀ s, term.accepts s = true ↔ ∃ p ∈ [0], TakesAt t.leaves p s := by
      simp [htakes, terms]
    cases q with
    | optional => exact isRight_validateOne hone (.inl rfl) w
    | star => exact Verdict.isRight_ofAll (fun s _ => hone s) (by simp)
    | plus =>
      cases w with
      | nil =>
        refine Verdict.isRight_failsAt (fun hw => ?_) (Nat.le_refl 0) ?_ (by simp)
        · exact (Language.image_allOf_iff.1 hw).2 rfl rfl
        · exact (Language.image_prefixes_allOf_iff (.inr (by simp))).2 (by simp)
      | cons s rest => exact Verdict.isRight_ofAll (fun s _ => hone s) fun _ => by simp
  | group kind left right =>
    cases kind with
    | sequence => exact isRight_validatePair (by simp [htakes, terms]) (by simp [htakes, terms]) w
    | choice => exact isRight_validateOne (by simp [htakes, terms]) (.inr (by simp)) w

/-! ## Expectations -/

/-- The numbers of the leaves that may come after so many children. -/
def live : DirectModel → Nat → List Nat
  | single _, n | quantified .optional _, n => if n = 0 then [0] else []
  | quantified .star _, _ | quantified .plus _, _ => [0]
  | group .sequence _ _, n => if n = 0 then [0] else if n = 1 then [1] else []
  | group .choice _ _, n => if n = 0 then [0, 1] else []

/-- Whether the content may end after so many children. -/
def ends : DirectModel → Nat → Bool
  | single _, n | group .choice _ _, n => n == 1
  | quantified .optional _, _ | quantified .star _, _ => true
  | quantified .plus _, n => decide (0 < n)
  | group .sequence _ _, n => n == 2

theorem expectationAfter_eq (m : DirectModel) (n : Nat) :
    m.expectationAfter n = .ofTerms ((m.live n).filterMap (m.terms[·]?)) (m.ends n) := by
  have hempty : ∀ (P : Prop) [Decidable P] (l : List Nat),
      (if P then l else []).filterMap (m.terms[·]?) =
        if P then l.filterMap (m.terms[·]?) else [] := by
    intro P _ l
    by_cases hP : P
    · simp [hP]
    · simp [hP]
  cases m with
  | single term =>
    simp only [expectationAfter, live, ends, hempty]
    rfl
  | quantified q term =>
    cases q with
    | optional =>
      simp only [expectationAfter, live, ends, hempty]
      rfl
    | star => rfl
    | plus => rfl
  | group kind left right =>
    cases kind with
    | sequence =>
      rcases n with _ | _ | n
      · rfl
      · rfl
      · rfl
    | choice =>
      simp only [expectationAfter, live, ends, hempty]
      rfl

theorem pairwise_live (m : DirectModel) (n : Nat) : (m.live n).Pairwise (· < ·) := by
  have hite : ∀ (P : Prop) [Decidable P] (l : List Nat), l.Pairwise (· < ·) →
      (if P then l else []).Pairwise (· < ·) := by
    intro P _ l hl
    split
    · exact hl
    · exact .nil
  cases m with
  | single term => exact hite _ _ (by simp)
  | quantified q term =>
    cases q with
    | optional => exact hite _ _ (by simp)
    | star => simp [live]
    | plus => simp [live]
  | group kind left right =>
    cases kind with
    | sequence =>
      show (if n = 0 then [0] else if n = 1 then [1] else []).Pairwise (· < ·)
      split
      · simp
      · exact hite _ _ (by simp)
    | choice => exact hite _ _ (by simp)

variable {R : Nat → Symbol → Prop} {w : List Symbol}

theorem mem_live_iff (hw : m.words.prefixes.image R w) (p : Nat) :
    p ∈ m.live w.length ↔ m.words.Alive R w p := by
  cases m with
  | single term =>
    rw [words, Language.alive_oneOf_iff]
    simp [live]
  | quantified q term =>
    cases q with
    | optional =>
      rw [words, Language.alive_oneOf_iff]
      simp [live]
    | star =>
      rw [words, Language.alive_allOf_iff]
      exact ⟨fun hp => ⟨hp, (Language.image_prefixes_allOf_iff (.inl rfl)).1 hw⟩, fun hp => hp.1⟩
    | plus =>
      rw [words, Language.alive_allOf_iff]
      exact ⟨fun hp => ⟨hp, (Language.image_prefixes_allOf_iff (.inr (by simp))).1 hw⟩,
        fun hp => hp.1⟩
  | group kind left right =>
    cases kind with
    | sequence =>
      rw [words, Language.alive_pair_iff]
      rcases Language.image_prefixes_pair_iff.1 hw with rfl | ⟨s, rfl, hs⟩ | ⟨s, s', rfl, -⟩
      · simp [live]
      · simp [live, hs]
      · simp [live]
    | choice =>
      rw [words, Language.alive_oneOf_iff]
      simp [live]

theorem ends_iff (hw : m.words.prefixes.image R w) :
    m.ends w.length = true ↔ m.words.image R w := by
  cases m with
  | single term =>
    rw [words, Language.image_oneOf_iff_of_viable hw (.inr (by simp))]
    simp [ends]
  | quantified q term =>
    cases q with
    | optional =>
      rw [words, Language.image_oneOf_iff_of_viable hw (.inl rfl)]
      simp [ends]
    | star =>
      rw [words, Language.image_allOf_iff]
      simpa [ends] using (Language.image_prefixes_allOf_iff (.inl rfl)).1 hw
    | plus =>
      rw [words, Language.image_allOf_iff]
      have hall := (Language.image_prefixes_allOf_iff (.inr (by simp))).1 hw
      simpa [ends, List.length_pos_iff] using fun _ => hall
  | group kind left right =>
    cases kind with
    | sequence =>
      rw [words, Language.image_pair_iff_of_viable hw]
      simp [ends]
    | choice =>
      rw [words, Language.image_oneOf_iff_of_viable hw (.inr (by simp))]
      simp [ends]

theorem Fits.isRight_expected (h : m.Fits t) (w : List Symbol) :
    Expectation.IsRight t.leaves (t.numbered 0) w (m.expected w) := by
  refine Expectation.isRight_of_verdict (h.isRight_validate w) (fun i hi hlen => ?_)
    fun hlen hw => ⟨m.expectationAfter w.length, ?_, ?_⟩
  · simp [expected, hi, Verdict.isIncomplete, hlen]
  · unfold expected
    cases hv : m.validate w with
    | valid => rfl
    | failsAt i => simp [Verdict.isIncomplete, hlen i hv]
  · rw [h.numbered_eq] at hw ⊢
    refine ⟨m.live w.length, m.ends w.length, m.pairwise_live _, mem_live_iff hw, ends_iff hw, ?_⟩
    simp only [expectationAfter_eq, ← h.leaves_eq, List.getElem?_map]

end DirectModel

end ElementContent
