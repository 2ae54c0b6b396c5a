import ElementContent.Model.Compile
import ElementContent.Proofs.Automaton.Bound
import ElementContent.Proofs.Automaton.Simulation
import ElementContent.Proofs.Model.Direct
import ElementContent.Proofs.Model.Mixed
import Mathlib.Order.Bounds.Defs

/-!
# Compiled models give the right answers

Whatever the options are, a declaration that compiles gets a model that fits its tree, and a model
that fits gives the answers that the words of the tree call for. So a model accepts just what the
declaration allows, it reports the failure as early as can be, and no option but the limits makes a
difference that can be observed.

- `Model.Fits`: the three ways in which a model may come to fit a tree; `fits_of_compile` says that
  a compiled model does.
- `Model.Fits.isRight_validate`, `Model.Fits.isRight_expected`: its answers are right.
- `exists_compile`: a declaration that can be analysed compiles if there is room for the states.

The last section draws the conclusions: which children are valid, where all others fail, and that
two compilations of one declaration answer alike.
-/

namespace ElementContent

/-! ## Compiled models fit -/

namespace Model

/-- The model is for contents with this tree. -/
inductive Fits (t : Tree) : Model → Prop
  | direct {m : DirectModel} : m.Fits t → Fits t (.direct m)
  | mixed {m : MixedModel} : m.Fits t → Fits t (.mixed m)
  | automaton {a : Analysis} {m : Automaton} : a.IsExact t → m.IsExplored t a →
    Fits t (.automaton m)

/-- What needs no automaton is a direct or a mixed model. -/
theorem direct_or_mixed_of_shortcut? {d : Declaration} {wantDirect wantMixed : Bool} {m : Model}
    (h : shortcut? d wantDirect wantMixed = some m) :
    (∃ m', DirectModel.ofDeclaration? d = some m' ∧ m = .direct m') ∨
      ∃ m', MixedModel.ofDeclaration? d = some m' ∧ m = .mixed m' := by
  rw [shortcut?, Option.orElse_eq_orElse, Option.orElse_eq_or, Option.or_eq_some_iff] at h
  rcases h with h | ⟨-, h⟩
  · split at h
    · obtain ⟨m', hm, rfl⟩ := Option.map_eq_some_iff.1 h
      exact .inl ⟨m', hm, rfl⟩
    · cases h
  · split at h
    · obtain ⟨m', hm, rfl⟩ := Option.map_eq_some_iff.1 h
      exact .inr ⟨m', hm, rfl⟩
    · cases h

theorem fits_of_shortcut? {d : Declaration} {wantDirect wantMixed : Bool} {m : Model}
    (h : shortcut? d wantDirect wantMixed = some m) : m.Fits d.tree := by
  rcases direct_or_mixed_of_shortcut? h with ⟨m, hm, rfl⟩ | ⟨m, hm, rfl⟩
  · exact .direct (DirectModel.fits_ofDeclaration? hm)
  · exact .mixed (MixedModel.fits_ofDeclaration? hm)

end Model

theorem Declaration.automaton_eq_ok_iff {d : Declaration} {limits : Limits} {m : Automaton} :
    d.automaton limits = .ok m ↔
      ∃ a, Analysis.ofDeclaration d limits = .ok a ∧ Automaton.ofAnalysis a limits = .ok m := by
  unfold Declaration.automaton
  cases Analysis.ofDeclaration d limits with
  | error e => simp [bind, Except.bind]
  | ok a => simp [bind, Except.bind]

theorem fits_of_automaton {d : Declaration} {limits : Limits} {m : Automaton}
    (h : d.automaton limits = .ok m) : Model.Fits d.tree (.automaton m) := by
  obtain ⟨a, ha, hm⟩ := Declaration.automaton_eq_ok_iff.1 h
  have hexact := Analysis.isExact_ofDeclaration ha
  exact .automaton hexact (Automaton.isExplored_ofAnalysis hexact hm)

theorem model_of_settle {o : CompileOptions} {m : Model} {conflicts : List Conflict}
    {c : CompiledModel} (h : settle o m conflicts = .ok c) : c.model = m := by
  unfold settle at h
  split at h
  · cases h
  · rw [← Except.ok.inj h]

/-- A compiled model is the one that needs no automaton, where there is one that is wanted, and
otherwise the automaton. -/
theorem model_of_compile {d : Declaration} {o : CompileOptions} {table : Option NameTable}
    {c : CompiledModel} (h : compile d o table = .ok c) :
    Model.shortcut? d o.wantDirect o.wantMixed = some c.model ∨
      Model.shortcut? d o.wantDirect o.wantMixed = none ∧
        ∃ m, d.automaton o.limits = .ok m ∧ c.model = .automaton m := by
  unfold compile at h
  split at h
  · next m hm =>
    split at h
    · cases ha : d.automaton o.limits with
      | error e => simp [ha, bind, Except.bind] at h
      | ok a =>
        rw [ha] at h
        exact .inl (by rw [hm, model_of_settle h])
    · rw [← Except.ok.inj h]
      exact .inl hm
  · next hnone =>
    cases ha : d.automaton o.limits with
    | error e => simp [ha, bind, Except.bind] at h
    | ok a =>
      rw [ha] at h
      exact .inr ⟨hnone, a, rfl, model_of_settle h⟩

/-- A compiled model fits the tree of its declaration. -/
theorem fits_of_compile {d : Declaration} {o : CompileOptions} {table : Option NameTable}
    {c : CompiledModel} (h : compile d o table = .ok c) : c.model.Fits d.tree := by
  rcases model_of_compile h with hm | ⟨-, m, hm, hc⟩
  · exact Model.fits_of_shortcut? hm
  · exact hc ▸ fits_of_automaton hm

/-- The model validates in the way that is settled beforehand. -/
theorem strategy_of_compile {d : Declaration} {o : CompileOptions} {table : Option NameTable}
    {c : CompiledModel} (h : compile d o table = .ok c) :
    c.model.strategy = Model.strategyFor d o.wantDirect o.wantMixed := by
  unfold Model.strategyFor
  rcases model_of_compile h with hm | ⟨hnone, m, -, hc⟩
  · rw [hm]
  · rw [hnone, hc]
    rfl

/-- A declaration that can be analysed compiles if there is room for all sets of its positions,
unless conflicts are errors. -/
theorem exists_compile {d : Declaration} {o : CompileOptions} (table : Option NameTable)
    (ha : (Analysis.ofDeclaration d o.limits).isOk = true)
    (hroom : 2 ^ (d.tree.leaves.length + 1) ≤ o.limits.states) (hmode : o.attribution ≠ .strict) :
    ∃ c, compile d o table = .ok c := by
  have hsettle : ∀ (m : Model) (conflicts : List Conflict),
      settle o m conflicts = .ok ⟨m, conflicts⟩ := by
    intro m conflicts
    rw [settle, if_neg]
    exact fun h => hmode h.1
  cases hok : Analysis.ofDeclaration d o.limits with
  | error e =>
    rw [hok] at ha
    cases ha
  | ok a =>
    have hexact := Analysis.isExact_ofDeclaration hok
    rw [← hexact.leaves_eq, Array.length_toList] at hroom
    obtain ⟨m, hm⟩ := Automaton.exists_ofAnalysis hexact hroom
    have hauto := Declaration.automaton_eq_ok_iff.2 ⟨a, hok, hm⟩
    unfold compile
    split
    · split
      · exact ⟨_, by rw [hauto]; exact hsettle _ _⟩
      · exact ⟨_, rfl⟩
    · exact ⟨_, by rw [hauto]; exact hsettle _ _⟩

/-! ## Models that fit answer right -/

namespace Model

variable {m : Model} {t : Tree} {w : List Symbol}

theorem mixed_alternatives {m : MixedModel} (h : m.Fits t)
    (hw : ∀ s ∈ w, s.isReserved = true → .element s ∉ t.terms) :
    ∀ s ∈ w, s.isReserved = true → s ∉ m.alternatives := by
  intro s hs hres hmem
  have hterm : Term.element s ∈ t.leaves.map (·.term) :=
    h.leaves_eq ▸ List.mem_map_of_mem hmem
  obtain ⟨leaf, hleaf, heq⟩ := List.mem_map.1 hterm
  exact hw s hs hres (heq ▸ (Tree.term_of_mem_leaves hleaf).1)

/-- The verdict of a model that fits is right for children that are no reserved symbols, or at least
none that a leaf names. -/
theorem Fits.isRight_validate (h : m.Fits t)
    (hw : ∀ s ∈ w, s.isReserved = true → .element s ∉ t.terms) :
    (m.validate w).IsRight (TakesAt t.leaves) (t.numbered 0) w := by
  cases h with
  | direct h => exact h.isRight_validate w
  | mixed h => exact h.isRight_validate (mixed_alternatives h hw)
  | automaton ha hm => exact Automaton.isRight_validate ha hm w

theorem Fits.isRight_expected (h : m.Fits t)
    (hw : ∀ s ∈ w, s.isReserved = true → .element s ∉ t.terms) :
    Expectation.IsRight t.leaves (t.numbered 0) w (m.expected w) := by
  cases h with
  | direct h => exact h.isRight_expected w
  | mixed h => exact h.isRight_expected (mixed_alternatives h hw)
  | automaton ha hm => exact Automaton.isRight_expected ha hm w

theorem Fits.positions_eq (h : m.Fits t) : m.stats.positions = t.leaves.length := by
  cases h with
  | direct h => exact h.termCount_eq
  | @mixed m h =>
    show m.alternatives.length = t.leaves.length
    simpa using congrArg List.length h.leaves_eq.symm
  | @automaton a m ha hm =>
    show m.leaves.size = t.leaves.length
    rw [hm.leaves_eq, ← ha.leaves_eq, Array.length_toList]

end Model

theorem Tree.children_eq_image (t : Tree) :
    t.children = .image (TakesAt t.leaves) (t.numbered 0) :=
  children_eq_image_numbered List.prefix_rfl

/-! ## What a compiled model answers -/

/-- A compiled model finds just those children valid that the declaration allows. -/
theorem validate_eq_valid_iff {d : Declaration} {o : CompileOptions} {table : Option NameTable}
    {c : CompiledModel} (h : compile d o table = .ok c) {w : List Symbol}
    (hw : ∀ s ∈ w, s.isReserved = false) :
    c.model.validate w = .valid ↔ d.tree.children w := by
  have hright := (fits_of_compile h).isRight_validate fun s hs hres =>
    absurd hres (Bool.eq_false_iff.1 (hw s hs))
  rw [Tree.children_eq_image]
  constructor
  · intro hvalid
    rw [hvalid] at hright
    exact hright
  · intro hword
    exact Verdict.isRight_unique hright hword

/-- The content `(a | b)+, any`, where `a` and `b` are elements and `any` is any element. -/
def sampleContent : Declaration where
  nodes := #[.leaf (.element ⟨0, 1⟩) none, .leaf (.element ⟨0, 2⟩) none, .group .choice 0 1,
    .quantified .plus 2, .leaf (.any .any) none, .group .sequence 3 4]
  root := 5
  labels := #[]
  root_lt := by decide
  earlier := by decide

theorem tree_sampleContent : sampleContent.tree =
    .group 5 .sequence
      (.quantified 3 .plus
        (.group 2 .choice (.leaf 0 (.element ⟨0, 1⟩) none) (.leaf 1 (.element ⟨0, 2⟩) none)))
      (.leaf 4 (.any .any) none) := by
  cbv

theorem exists_compile_sampleContent : ∃ c, compile sampleContent {} none = .ok c :=
  exists_compile none (by cbv) (by rw [tree_sampleContent]; decide) (by decide)

theorem validate_eq_valid_sampleContent : ∃ c, compile sampleContent {} none = .ok c ∧
    c.model.validate [⟨0, 2⟩, ⟨0, 1⟩, ⟨0, 3⟩] = .valid := by
  obtain ⟨c, hc⟩ := exists_compile_sampleContent
  refine ⟨c, hc, (validate_eq_valid_iff hc (by decide)).2 ?_⟩
  rw [tree_sampleContent]
  exact ⟨[⟨0, 2⟩, ⟨0, 1⟩], [⟨0, 3⟩], rfl, ⟨2, Nat.le_succ 1, [⟨0, 2⟩], [⟨0, 1⟩], rfl,
    .inr ⟨_, rfl, rfl⟩, [⟨0, 1⟩], [], rfl, .inl ⟨_, rfl, rfl⟩, rfl⟩, _, rfl, rfl⟩

/-- Where every leaf accepts some child, a beginning of what can be read is what can be read of a
beginning. -/
theorem Tree.prefixes_children {t : Tree}
    (hleaf : ∀ term ∈ t.terms, term.takesChild = true → ∃ s, term.accepts s = true) :
    t.children.prefixes = .image (TakesAt t.leaves) (t.numbered 0).prefixes := by
  rw [children_eq_image]
  refine Language.prefixes_image ?_
  intro p hp
  have hlt : p < t.leaves.length := by
    have := (occurs_numbered hp).2
    omega
  obtain ⟨hterm, htakes⟩ := term_of_mem_leaves (List.getElem_mem hlt)
  obtain ⟨s, hs⟩ := hleaf _ hterm htakes
  exact ⟨s, _, List.getElem?_eq_getElem hlt, hs⟩

/-- Where every leaf accepts some child, children that are not allowed fail at the end of their
longest beginning that can be completed: at the end of all of them if they can be completed
themselves, and otherwise at the first child that makes them a beginning of nothing. -/
theorem exists_validate_eq_failsAt {d : Declaration} {o : CompileOptions}
    {table : Option NameTable} {c : CompiledModel} (h : compile d o table = .ok c)
    (hleaf : ∀ term ∈ d.tree.terms, term.takesChild = true → ∃ s, term.accepts s = true)
    {w : List Symbol} (hw : ¬ d.tree.children w) :
    ∃ i, c.model.validate w = .failsAt i ∧
      IsGreatest {n | n ≤ w.length ∧ d.tree.children.prefixes (w.take n)} i ∧
      (i = w.length ↔ d.tree.children.prefixes w) ∧
      (i < w.length ↔ ¬ d.tree.children.prefixes (w.take (i + 1))) := by
  have hnames : ∀ s ∈ w, s.isReserved = true → .element s ∉ d.tree.terms := by
    -- a leaf that names a reserved symbol would accept no child
    intro s _ hres hmem
    obtain ⟨s', hs'⟩ := hleaf _ hmem rfl
    simp only [Term.accepts, Bool.and_eq_true, Bool.not_eq_true', beq_iff_eq] at hs'
    rw [hs'.2, hs'.1] at hres
    cases hres
  have hright := (fits_of_compile h).isRight_validate hnames
  rw [Tree.children_eq_image] at hw
  cases hv : c.model.validate w with
  | valid =>
    rw [hv] at hright
    exact absurd hright hw
  | failsAt i =>
    rw [hv] at hright
    obtain ⟨-, hi, hiff⟩ := hright
    rw [← Tree.prefixes_children hleaf] at hiff
    have hwhole : d.tree.children.prefixes w ↔ w.length ≤ i := by
      rw [← hiff _ (Nat.le_refl _), List.take_length]
    refine ⟨i, rfl, ⟨⟨hi, (hiff i hi).2 (Nat.le_refl i)⟩, fun n hn => ?_⟩, ?_, ?_⟩
    · exact (hiff n hn.1).1 hn.2
    · rw [hwhole]
      omega
    · by_cases hlt : i < w.length
      · rw [hiff _ hlt]
        omega
      · rw [List.take_of_length_le (by omega), hwhole]
        omega

theorem validate_eq_failsAt_sampleContent : ∃ c, compile sampleContent {} none = .ok c ∧
    c.model.validate [⟨0, 2⟩] = .failsAt 1 := by
  obtain ⟨c, hc⟩ := exists_compile_sampleContent
  have hleaf : ∀ term ∈ sampleContent.tree.terms, term.takesChild = true →
      ∃ s, term.accepts s = true := by
    rw [tree_sampleContent]
    intro term hterm _
    obtain rfl | rfl | rfl :
        term = .element ⟨0, 1⟩ ∨ term = .element ⟨0, 2⟩ ∨ term = .any .any := by
      simpa [Tree.terms] using hterm
    · exact ⟨⟨0, 1⟩, rfl⟩
    · exact ⟨⟨0, 2⟩, rfl⟩
    · exact ⟨⟨0, 1⟩, rfl⟩
  have hw : ¬ sampleContent.tree.children [⟨0, 2⟩] := by
    rw [tree_sampleContent]
    rintro ⟨u, -, huv, hu, s, rfl, -⟩
    obtain ⟨rfl, -⟩ : u = [] ∧ s = ⟨0, 2⟩ := by
      rcases List.append_eq_singleton_iff.1 huv.symm with ⟨hu, hs⟩ | ⟨-, hs⟩
      · exact ⟨hu, by simpa using hs⟩
      · cases hs
    obtain ⟨n, hn, hu⟩ := hu
    cases n with
    | zero => exact Nat.not_succ_le_zero 0 hn
    | succ n =>
      obtain ⟨x, y, hxy, hx, -⟩ := hu
      obtain ⟨rfl, -⟩ := List.append_eq_nil_iff.1 hxy.symm
      rcases hx with ⟨s, hs, -⟩ | ⟨s, hs, -⟩
      · cases hs
      · cases hs
  obtain ⟨i, hv, -, hlen, -⟩ := exists_validate_eq_failsAt hc hleaf hw
  refine ⟨c, hc, ?_⟩
  rw [hv, hlen.2 ⟨[⟨0, 3⟩], ?_⟩]
  · rfl
  · rw [tree_sampleContent]
    exact ⟨[⟨0, 2⟩], [⟨0, 3⟩], rfl, Language.iterate_of_mem .plus (.inr ⟨_, rfl, rfl⟩), _, rfl, rfl⟩

/-- Two compilations of one declaration give the same verdicts and the same expectations, and count
the same positions. -/
theorem compile_agrees {d : Declaration} {o o' : CompileOptions} {table table' : Option NameTable}
    {c c' : CompiledModel} (h : compile d o table = .ok c) (h' : compile d o' table' = .ok c')
    {w : List Symbol} (hw : ∀ s ∈ w, s.isReserved = false) :
    c.model.validate w = c'.model.validate w ∧ c.model.expected w = c'.model.expected w ∧
      c.model.stats.positions = c'.model.stats.positions := by
  have hfits := fits_of_compile h
  have hfits' := fits_of_compile h'
  have hnames : ∀ s ∈ w, s.isReserved = true → .element s ∉ d.tree.terms :=
    fun s hs hres => absurd hres (Bool.eq_false_iff.1 (hw s hs))
  refine ⟨?_, ?_, ?_⟩
  · exact Verdict.isRight_unique (hfits.isRight_validate hnames) (hfits'.isRight_validate hnames)
  · exact Expectation.isRight_unique (hfits.isRight_expected hnames)
      (hfits'.isRight_expected hnames)
  · rw [hfits.positions_eq, hfits'.positions_eq]

/-- The content `a | any`, which is checked directly unless that is switched off. -/
def sampleChoice : Declaration where
  nodes := #[.leaf (.element ⟨0, 1⟩) none, .leaf (.any .any) none, .group .choice 0 1]
  root := 2
  labels := #[]
  root_lt := by decide
  earlier := by decide

theorem compile_agrees_sampleChoice : ∃ c c', compile sampleChoice {} none = .ok c ∧
    compile sampleChoice { wantDirect := false } none = .ok c' ∧
    c.model.strategy = .direct ∧ c'.model.strategy = .automaton ∧
    c.model.validate [⟨0, 2⟩, ⟨0, 1⟩] = c'.model.validate [⟨0, 2⟩, ⟨0, 1⟩] ∧
    c.model.expected [] = c'.model.expected [] := by
  have htree : sampleChoice.tree = .group 2 .choice (.leaf 0 (.element ⟨0, 1⟩) none)
      (.leaf 1 (.any .any) none) := by cbv
  have hroom : 2 ^ (sampleChoice.tree.leaves.length + 1) ≤ Limits.standard.states := by
    rw [htree]
    decide
  obtain ⟨c, hc⟩ := exists_compile (o := {}) none (by cbv) hroom (by decide)
  obtain ⟨c', hc'⟩ := exists_compile (o := { wantDirect := false }) none (by cbv) hroom
    (by decide)
  refine ⟨c, c', hc, hc', ?_, ?_, (compile_agrees hc hc' (by decide)).1,
    (compile_agrees hc hc' (by decide)).2.1⟩
  · rw [strategy_of_compile hc]
    rfl
  · rw [strategy_of_compile hc']
    cbv

end ElementContent
