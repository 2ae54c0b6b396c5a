import ElementContent.Proofs.Model.Compile

/-!
# Expectations and verdicts say the same

What may come after some children is not computed from the verdicts. Still the two have to agree:
an expectation is given just where the children do not fail before their end, and it promises just
those children and that end for which the verdict turns out so.

- `Expectation.Admits`: a child may follow by its name or by a wildcard.
- `Expectation.Agrees`: an expectation says what the verdicts say.
- `Expectation.Lists.agrees`, `Expectation.IsRight.complements`: right verdicts and right
  expectations agree.
- `MixedModel.complements_expected`: looked-up children are a case of their own, for a reserved
  symbol that is listed gets a verdict that is not right.
- `Model.Fits.complements_expected`: any model that fits a content.

The last section says the same of compiled models.
-/

namespace ElementContent

namespace Expectation

/-- A child of this name may follow, by its name or by a wildcard. -/
def Admits (e : Expectation) (s : Symbol) : Prop :=
  s ∈ e.elements ∨ ∃ w ∈ e.wildcards, w.allows s.space = true

/-- Nothing is listed twice. -/
structure Distinct (e : Expectation) : Prop where
  elements : e.elements.Nodup
  wildcards : e.wildcards.Nodup

/-! ## What the terms let follow -/

@[simp] theorem canEnd_add (e : Expectation) (t : Term) : (e.add t).canEnd = e.canEnd := by
  cases t with
  | element s => simp only [add]; split <;> rfl
  | any w => simp only [add]; split <;> rfl
  | text => rfl
  | empty => rfl

theorem admits_add {e : Expectation} {t : Term} {s : Symbol} (hs : s.isReserved = false) :
    (e.add t).Admits s ↔ e.Admits s ∨ t.accepts s = true := by
  cases t with
  | element name =>
    simp only [add, Admits, Term.accepts, hs]
    split
    · next hmem =>
      -- the name is listed already, so it adds nothing
      simp only [Bool.not_false, Bool.true_and, beq_iff_eq]
      refine (or_iff_left_of_imp ?_).symm
      rintro rfl
      exact .inl hmem
    · simp [or_right_comm, @eq_comm _ s name]
  | any w =>
    simp only [add, Admits, Term.accepts, hs]
    split
    · next hmem =>
      simp only [Bool.not_false, Bool.true_and]
      exact (or_iff_left_of_imp fun hw => .inr ⟨w, hmem, hw⟩).symm
    · simp [or_and_right, exists_or, or_assoc]
  | text => simp [add, Term.accepts]
  | empty => simp [add, Term.accepts]

theorem Distinct.add {e : Expectation} (h : e.Distinct) (t : Term) : (e.add t).Distinct := by
  cases t with
  | element s =>
    simp only [Expectation.add]
    split
    · exact h
    · next hs => exact ⟨List.concat_eq_append ▸ h.elements.concat hs, h.wildcards⟩
  | any w =>
    simp only [Expectation.add]
    split
    · exact h
    · next hw => exact ⟨h.elements, List.concat_eq_append ▸ h.wildcards.concat hw⟩
  | text => exact h
  | empty => exact h

variable {terms : List Term} {ends : Bool}

@[simp] theorem canEnd_ofTerms : (ofTerms terms ends).canEnd = ends := by
  unfold ofTerms
  suffices h : ∀ e : Expectation, (terms.foldl add e).canEnd = e.canEnd from h _
  induction terms with
  | nil => exact fun e => rfl
  | cons t terms ih => exact fun e => (ih _).trans (canEnd_add e t)

/-- The terms let follow just what one of them accepts. -/
theorem admits_ofTerms {s : Symbol} (hs : s.isReserved = false) :
    (ofTerms terms ends).Admits s ↔ ∃ t ∈ terms, t.accepts s = true := by
  unfold ofTerms
  suffices h : ∀ e : Expectation,
      (terms.foldl add e).Admits s ↔ e.Admits s ∨ ∃ t ∈ terms, t.accepts s = true by
    rw [h]
    simp [Admits]
  induction terms with
  | nil => simp
  | cons t terms ih =>
    intro e
    rw [List.foldl_cons, ih, admits_add hs, List.exists_mem_cons_iff, or_assoc]

theorem distinct_ofTerms : (ofTerms terms ends).Distinct := by
  unfold ofTerms
  suffices h : ∀ e : Expectation, e.Distinct → (terms.foldl add e).Distinct from
    h _ ⟨.nil, .nil⟩
  induction terms with
  | nil => exact fun e he => he
  | cons t terms ih => exact fun e he => ih _ (he.add t)

/-- The expectation after some children says what the verdicts say: that the children may end here,
and that one child more does not fail at its own place. -/
structure Agrees (validate : List Symbol → Verdict) (w : List Symbol) (e : Expectation) : Prop where
  canEnd_iff : e.canEnd = true ↔ validate w = .valid
  admits_iff : ∀ s, s.isReserved = false →
    (e.Admits s ↔ validate (w ++ [s]) ≠ .failsAt w.length)
  distinct : e.Distinct

end Expectation

/-! ## Right answers agree -/

variable {α : Type} {R : α → Symbol → Prop} {a : Language α} {w : List Symbol} {s : Symbol}

/-- One child more is viable if it can be read as a letter that is alive. -/
theorem Language.image_prefixes_concat_iff :
    a.prefixes.image R (w ++ [s]) ↔ ∃ p, a.Alive R w p ∧ R p s := by
  constructor
  · rintro ⟨u, ⟨v, huv⟩, hu⟩
    obtain ⟨x, p, rfl, hx, hps⟩ := forall₂_concat_right hu
    exact ⟨p, ⟨x, v, by simpa using huv, hx⟩, hps⟩
  · rintro ⟨p, ⟨u, v, huv, hu⟩, hps⟩
    exact ⟨u ++ [p], ⟨v, by simpa using huv⟩, forall₂_concat hu hps⟩

namespace Verdict

variable {v : Verdict}

theorem IsRight.eq_valid_iff (h : v.IsRight R a w) : v = .valid ↔ a.image R w := by
  cases v with
  | valid => exact iff_of_true rfl h
  | failsAt i => exact iff_of_false (by simp) h.1

/-- The children are viable unless they fail before their end. -/
theorem IsRight.not_viable_iff (h : v.IsRight R a w) :
    ¬ a.prefixes.image R w ↔ ∃ i < w.length, v = .failsAt i := by
  cases v with
  | valid => simpa using Language.image_prefixes_of_image h
  | failsAt i =>
    obtain ⟨-, hi, hiff⟩ := h
    have hwhole := hiff w.length (Nat.le_refl _)
    rw [List.take_length] at hwhole
    rw [hwhole]
    simp

/-- After viable children, one child more does not fail at its place if it is viable, too. -/
theorem IsRight.concat_ne_iff (h : v.IsRight R a (w ++ [s])) (hw : a.prefixes.image R w) :
    v ≠ .failsAt w.length ↔ a.prefixes.image R (w ++ [s]) := by
  cases v with
  | valid => exact iff_of_true (by simp) (Language.image_prefixes_of_image h)
  | failsAt i =>
    obtain ⟨-, hi, hiff⟩ := h
    have hbefore := hiff w.length (by simp)
    have hwhole := hiff (w.length + 1) (by simp)
    rw [List.take_left] at hbefore
    rw [List.take_of_length_le (by simp)] at hwhole
    have hge := hbefore.1 hw
    rw [hwhole, Ne, Verdict.failsAt.injEq]
    omega

end Verdict

namespace Expectation

variable {leaves : List Leaf} {a : Language Nat} {validate : List Symbol → Verdict}
  {expected : List Symbol → Option Expectation}

/-- An expectation that lists what is alive agrees with verdicts that are right. -/
theorem Lists.agrees {e : Expectation} (he : e.Lists leaves a w)
    (hw : a.prefixes.image (TakesAt leaves) w)
    (hv : ∀ w, (validate w).IsRight (TakesAt leaves) a w) : e.Agrees validate w := by
  obtain ⟨live, ends, -, hlive, hends, rfl⟩ := he
  refine ⟨?_, fun s hs => ?_, distinct_ofTerms⟩
  · rw [canEnd_ofTerms, hends, (hv w).eq_valid_iff]
  · rw [(hv (w ++ [s])).concat_ne_iff hw, Language.image_prefixes_concat_iff, admits_ofTerms hs]
    simp only [List.mem_filterMap, Option.map_eq_some_iff, ← hlive]
    constructor
    · rintro ⟨-, ⟨p, hp, leaf, hleaf, rfl⟩, haccepts⟩
      exact ⟨p, hp, leaf, hleaf, haccepts⟩
    · rintro ⟨p, hp, leaf, hleaf, haccepts⟩
      exact ⟨leaf.term, ⟨p, hp, leaf, hleaf, rfl⟩, haccepts⟩

/-- What is said after some children fits the verdicts: nothing if they fail before their end, and
otherwise an expectation that agrees. -/
def Complements (validate : List Symbol → Verdict) (w : List Symbol) (e : Option Expectation) :
    Prop :=
  (e = none ↔ ∃ i < w.length, validate w = .failsAt i) ∧ ∀ e' ∈ e, e'.Agrees validate w

theorem IsRight.complements {e : Option Expectation} (he : IsRight leaves a w e)
    (hv : ∀ w, (validate w).IsRight (TakesAt leaves) a w) : Complements validate w e := by
  unfold Complements
  rw [← (hv w).not_viable_iff]
  cases e with
  | none => exact ⟨iff_of_true rfl he, by simp⟩
  | some e =>
    obtain ⟨hw, he⟩ := he
    refine ⟨iff_of_false (by simp) (not_not_intro hw), fun e' he' => ?_⟩
    obtain rfl := Option.mem_some.1 he'
    exact he.agrees hw hv

end Expectation

/-! ## Children that are looked up -/

namespace MixedModel

variable (m : MixedModel)

/-- The verdict is right for any sequence of the listed elements, where an element is read as
itself, be it reserved or not. -/
theorem isRight_listed (w : List Symbol) :
    (m.validate w).IsRight (· = ·) (.allOf m.alternatives false) w :=
  Verdict.isRight_ofAll (by simp) (by simp)

theorem viable_listed_iff :
    Language.image (· = ·) (Language.allOf m.alternatives false).prefixes w ↔
      ∀ s ∈ w, s ∈ m.alternatives := by
  rw [Language.image_prefixes_allOf_iff (.inl rfl)]
  simp

theorem validate_eq_valid_iff_listed : m.validate w = .valid ↔ ∀ s ∈ w, s ∈ m.alternatives := by
  rw [(m.isRight_listed w).eq_valid_iff, Language.image_allOf_iff]
  simp

theorem complements_expected (w : List Symbol) :
    Expectation.Complements m.validate w (m.expected w) := by
  have hright := m.isRight_listed w
  unfold Expectation.Complements expected
  cases hv : m.validate w with
  | valid =>
    have hlisted := m.validate_eq_valid_iff_listed.1 hv
    refine ⟨by simp, fun e he => ?_⟩
    obtain rfl := Option.mem_some.1 he
    refine ⟨by simp [hv], fun s hs => ?_, Expectation.distinct_ofTerms⟩
    rw [(m.isRight_listed _).concat_ne_iff (m.viable_listed_iff.2 hlisted), viable_listed_iff,
      Expectation.admits_ofTerms hs, List.forall_mem_append]
    simpa [Term.accepts, hs] using fun _ => hlisted
  | failsAt i =>
    -- every child that may stand may stand last, so the children fail before their end
    refine ⟨iff_of_true rfl ?_, by simp⟩
    rw [← hv, ← hright.not_viable_iff, viable_listed_iff, ← validate_eq_valid_iff_listed, hv]
    simp

end MixedModel

/-! ## Compiled models -/

/-- What a model says of a content that it fits complements its verdicts. -/
theorem Model.Fits.complements_expected {m : Model} {t : Tree} (h : m.Fits t) (w : List Symbol) :
    Expectation.Complements m.validate w (m.expected w) := by
  cases h with
  | direct h => exact (h.isRight_expected w).complements h.isRight_validate
  | @mixed m h => exact m.complements_expected w
  | automaton ha hm =>
    have hexpected := Automaton.isRight_expected ha hm w
    exact hexpected.complements (Automaton.isRight_validate ha hm)

/-- Children that are allowed are found valid. -/
theorem Model.Fits.validate_eq_valid {m : Model} {t : Tree} (h : m.Fits t) {w : List Symbol}
    (hw : t.children w) (hres : ∀ s ∈ w, s.isReserved = false) : m.validate w = .valid := by
  rw [Tree.children_eq_image] at hw
  have hright := h.isRight_validate fun s hs hr => absurd hr (Bool.eq_false_iff.1 (hres s hs))
  exact hright.eq_valid_iff.2 hw

/-- A compiled model says what may follow just where its verdict is not that of a wrong child, and
then it promises the end and those children for which its verdicts turn out so. -/
theorem expected_agrees {d : Declaration} {o : CompileOptions} {table : Option NameTable}
    {c : CompiledModel} (h : compile d o table = .ok c) (w : List Symbol) :
    (c.model.expected w = none ↔ ∃ i < w.length, c.model.validate w = .failsAt i) ∧
      ∀ e, c.model.expected w = some e →
        (e.canEnd = true ↔ c.model.validate w = .valid) ∧
        (∀ s, s.isReserved = false →
          (e.Admits s ↔ c.model.validate (w ++ [s]) ≠ .failsAt w.length)) ∧
        e.elements.Nodup ∧ e.wildcards.Nodup := by
  obtain ⟨hnone, hsome⟩ := (fits_of_compile h).complements_expected w
  refine ⟨hnone, fun e he => ?_⟩
  obtain ⟨hend, hadmits, hdistinct⟩ := hsome e he
  exact ⟨hend, hadmits, hdistinct.elements, hdistinct.wildcards⟩

/-- After `b, a` the content `(a | b)+, any` may end, for `a` may be taken by the wildcard; and any
element may follow. -/
theorem expected_agrees_sampleContent : ∃ c e, compile sampleContent {} none = .ok c ∧
    c.model.expected [⟨0, 2⟩, ⟨0, 1⟩] = some e ∧ e.canEnd = true ∧ e.Admits ⟨0, 3⟩ := by
  obtain ⟨c, hc⟩ := exists_compile_sampleContent
  have hplus : ∀ s : Symbol, s = ⟨0, 1⟩ ∨ s = ⟨0, 2⟩ →
      (Tree.group 2 .choice (.leaf 0 (.element ⟨0, 1⟩) none)
        (.leaf 1 (.element ⟨0, 2⟩) none)).children [s] := by
    rintro s (rfl | rfl)
    · exact .inl ⟨_, rfl, rfl⟩
    · exact .inr ⟨_, rfl, rfl⟩
  have hvalid : ∀ w, sampleContent.tree.children w → (∀ s ∈ w, s.isReserved = false) →
      c.model.validate w = .valid := fun w hw hres =>
    (fits_of_compile hc).validate_eq_valid hw hres
  rw [tree_sampleContent] at hvalid
  have hshort : c.model.validate [⟨0, 2⟩, ⟨0, 1⟩] = .valid := by
    refine hvalid _ ⟨[⟨0, 2⟩], [⟨0, 1⟩], rfl, ?_, _, rfl, rfl⟩ (by decide)
    exact Language.iterate_of_mem .plus (hplus _ (.inr rfl))
  have hlong : c.model.validate [⟨0, 2⟩, ⟨0, 1⟩, ⟨0, 3⟩] = .valid := by
    refine hvalid _ ⟨[⟨0, 2⟩, ⟨0, 1⟩], [⟨0, 3⟩], rfl, ?_, _, rfl, rfl⟩ (by decide)
    refine ⟨2, Nat.le_succ 1, ?_⟩
    exact Language.power_add (Language.power_one.2 (hplus _ (.inr rfl)))
      (Language.power_one.2 (hplus _ (.inl rfl)))
  obtain ⟨hnone, hsome⟩ := expected_agrees hc [⟨0, 2⟩, ⟨0, 1⟩]
  cases he : c.model.expected [⟨0, 2⟩, ⟨0, 1⟩] with
  | none =>
    obtain ⟨i, -, hi⟩ := hnone.1 he
    rw [hshort] at hi
    cases hi
  | some e =>
    obtain ⟨hend, hadmits, -⟩ := hsome e he
    refine ⟨c, e, hc, he, hend.2 hshort, (hadmits _ (by decide)).2 ?_⟩
    rw [List.cons_append, List.cons_append, List.nil_append, hlong]
    simp

end ElementContent
