import ElementContent.Proofs.Model.Expectation

/-!
# Reserved symbols among the children

A reserved symbol is no child, so a model should turn it away wherever it stands. Direct checks and
automata do, for they ask what a term accepts, and no term accepts a reserved symbol. A flat mixed
content looks children up among the symbols of its leaves, and one of these may be reserved.

- `Model.TurnsReservedAway`: children fail at a reserved symbol at the latest.
- `Verdict.IsRight.exists_failsAt_le`: right verdicts fail where no letter can be read.
- `Model.Fits.turnsReservedAway_iff_of_mixed`: a model that fits turns reserved symbols away unless
  it looks children up among symbols of which one is reserved.

The last section draws the conclusion for compiled models; mixed content that lists the end mark
takes it for a child.
-/

namespace ElementContent

/-- Children fail at a reserved symbol at the latest, and nothing is said of what may follow. -/
def Model.TurnsReservedAway (m : Model) : Prop :=
  ∀ (w : List Symbol) (k : Nat) (s : Symbol), w[k]? = some s → s.isReserved = true →
    (∃ i ≤ k, m.validate w = .failsAt i) ∧ m.expected w = none

/-- Children fail at the latest at one that no letter can be read as. -/
theorem Verdict.IsRight.exists_failsAt_le {α : Type} {R : α → Symbol → Prop} {a : Language α}
    {w : List Symbol} {v : Verdict} (h : v.IsRight R a w) {k : Nat} {s : Symbol}
    (hk : w[k]? = some s) (hs : ∀ p, ¬ R p s) : ∃ i ≤ k, v = .failsAt i := by
  obtain ⟨hlt, rfl⟩ := List.getElem?_eq_some_iff.1 hk
  have hread : ¬ a.prefixes.image R (w.take (k + 1)) := by
    rw [← List.take_concat_get' w k hlt, Language.image_prefixes_concat_iff]
    rintro ⟨p, -, hp⟩
    exact hs p hp
  cases v with
  | valid =>
    exact absurd (Language.image_prefixes_take _ (Language.image_prefixes_of_image h)) hread
  | failsAt i =>
    refine ⟨i, Nat.le_of_not_lt fun hki => hread ?_, rfl⟩
    exact (h.2.2 (k + 1) hlt).2 hki

theorem not_takesAt_of_isReserved {leaves : List Leaf} {s : Symbol} (hs : s.isReserved = true)
    (p : Nat) : ¬ TakesAt leaves p s := by
  rintro ⟨leaf, -, haccepts⟩
  simp [Term.accepts, hs] at haccepts

namespace Model

variable {m : Model} {t : Tree}

/-- The symbols that children are looked up among are those that the leaves name. -/
theorem mem_alternatives_iff {m : MixedModel} (h : m.Fits t) {s : Symbol} :
    s ∈ m.alternatives ↔ .element s ∈ t.terms := by
  have hmem : Term.element s ∈ m.alternatives.map .element ↔
      .element s ∈ t.terms.filter Term.takesChild := by
    rw [← h.leaves_eq, Tree.map_term_leaves]
  simpa [Term.takesChild] using hmem

/-- A model that fits turns reserved symbols away, unless it looks children up among symbols of
which one is reserved. -/
theorem Fits.turnsReservedAway_iff_of_mixed (h : m.Fits t) : m.TurnsReservedAway ↔
    (m.strategy = .mixed → ∀ s, s.isReserved = true → .element s ∉ t.terms) := by
  constructor
  · intro haway hmixed s hs hmem
    cases h with
    | direct h => cases hmixed
    | automaton ha hm => cases hmixed
    | @mixed m h =>
      -- the symbol alone is found valid, for it is listed
      have hvalid : m.validate [s] = .valid :=
        m.validate_eq_valid_iff_listed.2 (by simpa using (mem_alternatives_iff h).2 hmem)
      obtain ⟨⟨i, -, hi⟩, -⟩ := haway [s] 0 s rfl hs
      rw [show (Model.mixed m).validate [s] = m.validate [s] from rfl, hvalid] at hi
      cases hi
  · intro hnames w k s hk hs
    have hright : (m.validate w).IsRight (TakesAt t.leaves) (t.numbered 0) w := by
      cases h with
      | direct h => exact h.isRight_validate w
      | mixed h => exact h.isRight_validate (mixed_alternatives h fun s _ => hnames rfl s)
      | automaton ha hm => exact Automaton.isRight_validate ha hm w
    obtain ⟨i, hik, hi⟩ := hright.exists_failsAt_le hk (not_takesAt_of_isReserved hs)
    have hlt := (List.getElem?_eq_some_iff.1 hk).1
    exact ⟨⟨i, hik, hi⟩, (h.complements_expected w).1.2 ⟨i, Nat.lt_of_le_of_lt hik hlt, hi⟩⟩

end Model

/-- A compiled model turns reserved symbols away, unless its content is one whose children are
looked up and one of its leaves names a reserved symbol. -/
theorem turnsReservedAway_iff {d : Declaration} {o : CompileOptions} {table : Option NameTable}
    {c : CompiledModel} (h : compile d o table = .ok c) : c.model.TurnsReservedAway ↔
      (Model.strategyFor d o.wantDirect o.wantMixed = .mixed →
        ∀ s, s.isReserved = true → .element s ∉ d.tree.terms) := by
  rw [← strategy_of_compile h]
  exact (fits_of_compile h).turnsReservedAway_iff_of_mixed

theorem turnsReservedAway_mixedElement : ∃ c, compile (.mixed [⟨0, 1⟩]) {} none = .ok c ∧
    Model.strategyFor (.mixed [⟨0, 1⟩]) true true = .mixed ∧ c.model.TurnsReservedAway := by
  have hmodel : Model.shortcut? (.mixed [⟨0, 1⟩]) true true = some (.mixed ⟨[⟨0, 1⟩]⟩) := by cbv
  have hc : compile (.mixed [⟨0, 1⟩]) {} none = .ok ⟨.mixed ⟨[⟨0, 1⟩]⟩, []⟩ := by
    rw [compile, hmodel]
    rfl
  refine ⟨_, hc, by rw [Model.strategyFor, hmodel]; rfl, (turnsReservedAway_iff hc).2 ?_⟩
  intro _ s hs hmem
  have hterms : (Declaration.mixed [⟨0, 1⟩]).tree.terms = [.text, .element ⟨0, 1⟩] := by cbv
  rw [hterms] at hmem
  obtain rfl : s = ⟨0, 1⟩ := by simpa using hmem
  cases hs

/-- Mixed content that lists the end mark finds the mark valid as a child. -/
theorem not_turnsReservedAway_mixedEnd : ∃ c, compile (.mixed [.endMark]) {} none = .ok c ∧
    c.model.validate [.endMark] = .valid ∧ ¬ c.model.TurnsReservedAway := by
  have hmodel : Model.shortcut? (.mixed [.endMark]) true true = some (.mixed ⟨[.endMark]⟩) := by cbv
  have hc : compile (.mixed [.endMark]) {} none = .ok ⟨.mixed ⟨[.endMark]⟩, []⟩ := by
    rw [compile, hmodel]
    rfl
  refine ⟨_, hc, rfl, fun haway => ?_⟩
  obtain ⟨⟨i, -, hi⟩, -⟩ := haway [.endMark] 0 .endMark rfl rfl
  cases hi

end ElementContent
