import ElementContent.Proofs.Automaton.TableRun
import ElementContent.Proofs.Model.Compile
import ElementContent.Proofs.Position.Pass

/-!
# Nothing is looked up out of range

From the nodes of a declaration to the answers of its model, entries of arrays are looked up by
number: nodes, marks, summaries, sets of positions, entries of the table, children. Done with checks
that give up where an entry is missing, the work has the same outcome throughout. So no entry is
ever missing, and nothing is ever put in its place.

- `DirectModel.validate?`, `DirectModel.expected?`: direct checks that look children up by number.
- `Model.validate?`, `Model.expected?`: the answers of a model with checked look-ups, which are its
  answers if it fits a tree (`Model.Fits.validate?_eq`, `Model.Fits.expected?_eq`).
- `pipeline_stays_in_range`: every stage, for every declaration, all limits and any children.
-/

namespace ElementContent

/-! ## Direct checks -/

namespace DirectModel

/-- The verdict on at most one child, which is looked up if there is one. -/
def validateOne? (p : Symbol → Bool) (required : Bool) (children : List Symbol) :
    Option Verdict :=
  if children.length = 0 then some (if required then .failsAt 0 else .valid)
  else do
    let s ← children[0]?
    return if !p s then .failsAt 0 else if 1 < children.length then .failsAt 1 else .valid

/-- Whether there is a child at the index that the term does not accept. -/
def refuses? (term : Term) (i : Nat) (children : List Symbol) : Option Bool :=
  if i < children.length then do
    let s ← children[i]?
    return !term.accepts s
  else some false

/-- The verdict on two children in order, which are looked up if they are there. -/
def validatePair? (left right : Term) (children : List Symbol) : Option Verdict := do
  if ← refuses? left 0 children then return .failsAt 0
  if ← refuses? right 1 children then return .failsAt 1
  return if children.length = 2 then .valid else .failsAt (min children.length 2)

/-- The verdict on children, which are looked up by number. -/
def validate? (m : DirectModel) (children : List Symbol) : Option Verdict :=
  match m with
  | single term => validateOne? term.accepts true children
  | quantified .optional term => validateOne? term.accepts false children
  | group .sequence left right => validatePair? left right children
  | group .choice left right =>
    validateOne? (fun s => left.accepts s || right.accepts s) true children
  | quantified .star _ | quantified .plus _ => some (m.validate children)

/-- What may come after children, by their verdict. -/
def expected? (m : DirectModel) (children : List Symbol) : Option (Option Expectation) := do
  match ← m.validate? children with
  | .valid => return some (m.expectationAfter children.length)
  | .failsAt i =>
    return if Verdict.isIncomplete i children.length then
      some (m.expectationAfter children.length) else none

theorem validateOne?_eq (p : Symbol → Bool) (required : Bool) (w : List Symbol) :
    validateOne? p required w = some (validateOne p required w) := by
  cases w with
  | nil => rfl
  | cons s rest => cases rest <;> simp [validateOne?, validateOne]

theorem refuses?_eq (term : Term) (i : Nat) (w : List Symbol) :
    refuses? term i w = some ((w[i]?).any fun s => !term.accepts s) := by
  unfold refuses?
  by_cases hi : i < w.length
  · simp [hi]
  · simp [hi]

theorem validatePair?_eq (left right : Term) (w : List Symbol) :
    validatePair? left right w = some (validatePair left right w) := by
  unfold validatePair?
  rw [refuses?_eq, refuses?_eq]
  match w with
  | [] => rfl
  | [s] => cases h : left.accepts s <;> simp [validatePair, h]
  | [s, t] => cases h : left.accepts s <;> cases h' : right.accepts t <;> simp [validatePair, h, h']
  | s :: t :: u :: rest =>
    cases h : left.accepts s <;> cases h' : right.accepts t <;> simp [validatePair, h, h']

theorem validate?_eq (m : DirectModel) (w : List Symbol) : m.validate? w = some (m.validate w) := by
  cases m with
  | single term => exact validateOne?_eq _ _ w
  | quantified q term =>
    cases q with
    | optional => exact validateOne?_eq _ _ w
    | star => rfl
    | plus => rfl
  | group kind left right =>
    cases kind with
    | sequence => exact validatePair?_eq left right w
    | choice => exact validateOne?_eq _ _ w

theorem expected?_eq (m : DirectModel) (w : List Symbol) : m.expected? w = some (m.expected w) := by
  unfold expected? expected
  rw [validate?_eq]
  cases m.validate w <;> rfl

end DirectModel

/-! ## Models -/

namespace Model

/-- The verdict on children, where an automaton has its steps in one array. -/
def validate? : Model → List Symbol → Option Verdict
  | direct m => m.validate?
  | mixed m => fun children => some (m.validate children)
  | automaton m => m.laidOut.validate?

/-- What may come after children, where an automaton has its steps in one array. -/
def expected? : Model → List Symbol → Option (Option Expectation)
  | direct m => m.expected?
  | mixed m => fun children => some (m.expected children)
  | automaton m => m.laidOut.expected?

variable {m : Model} {t : Tree}

theorem Fits.validate?_eq (h : m.Fits t) (w : List Symbol) :
    m.validate? w = some (m.validate w) := by
  cases h with
  | direct _ => exact DirectModel.validate?_eq _ w
  | mixed _ => rfl
  | automaton ha hm => exact Automaton.validate?_laidOut ha hm w

theorem Fits.expected?_eq (h : m.Fits t) (w : List Symbol) :
    m.expected? w = some (m.expected w) := by
  cases h with
  | direct _ => exact DirectModel.expected?_eq _ w
  | mixed _ => rfl
  | automaton ha hm => exact Automaton.expected?_laidOut ha hm w

end Model

/-! ## All stages -/

/-- No stage looks anything up out of range, and no summary is ever missing.

The analysis, the construction of the automaton and the check for unique attribution all have an
outcome with checked look-ups, and so have the answers of the automaton and of every compiled model.
In the pass of the analysis, once the walk has succeeded, a summary is in the table exactly from the
step of its node to that of the parent, the parts of a node are there when its turn comes, and the
root is there at the end; all this with anything, or nothing, to stand in for a summary that is
missing. -/
theorem pipeline_stays_in_range (d : Declaration) (limits : Limits) :
    (∀ missing, d.analyze? missing limits =
      some ((Analysis.ofDeclaration d limits).map (·.laidOut d.nodes.size))) ∧
    (∀ v, d.visit? limits = some (.ok v) →
      (∀ j, v.visited[j]? = some true ↔ j ∈ d.tree.ids) ∧
      ∀ missing i, i ≤ d.nodes.size →
        ∃ p, v.pass? missing d i = some p ∧ d.HoldsWaiting p i) ∧
    (∀ a, Analysis.ofDeclaration d limits = .ok a →
      ∀ limits', a.synthesize? limits' = some ((Automaton.ofAnalysis a limits').map (·.laidOut)) ∧
        ∀ m, Automaton.ofAnalysis a limits' = .ok m →
          (∀ d' table, m.laidOut.conflicts? d' table = some (m.conflicts d' table)) ∧
          ∀ w, m.laidOut.validate? w = some (m.validate w) ∧
            m.laidOut.expected? w = some (m.expected w)) ∧
    ∀ o table c, compile d o table = .ok c → ∀ w,
      c.model.validate? w = some (c.model.validate w) ∧
        c.model.expected? w = some (c.model.expected w) := by
  refine ⟨fun missing => d.analyze?_eq missing limits, fun v hv => ?_, fun a ha limits' => ?_,
    fun o table c hc w => ?_⟩
  · rw [Declaration.visit?_eq, Option.some_inj] at hv
    cases hn : Numbering.ofTree limits d.tree with
    | error e =>
      rw [hn] at hv
      cases hv
    | ok n =>
      rw [hn] at hv
      obtain rfl := Except.ok.inj hv
      refine ⟨fun j => d.visited_iff hn, fun missing i hi => ?_⟩
      exact ⟨_, Declaration.pass?_eq missing hn hi, Declaration.holdsWaiting_passed hn i⟩
  · have hexact := Analysis.isExact_ofDeclaration ha
    refine ⟨Analysis.synthesize?_eq hexact limits', fun m hm => ?_⟩
    have hexplored := Automaton.isExplored_ofAnalysis hexact hm
    exact ⟨Automaton.conflicts?_laidOut hexact hexplored,
      fun w => ⟨Automaton.validate?_laidOut hexact hexplored w,
        Automaton.expected?_laidOut hexact hexplored w⟩⟩
  · have hfits := fits_of_compile hc
    exact ⟨hfits.validate?_eq w, hfits.expected?_eq w⟩

/-- Before the step of the root, the summary of what is repeated has been taken, and those of the
repetition and of the last leaf wait. -/
theorem pipeline_stays_in_range_sampleContent : ∃ v p a m c,
    sampleContent.visit? .standard = some (.ok v) ∧ v.pass? none sampleContent 5 = some p ∧
    (∃ s, p.summaries[3]? = some (some s)) ∧ (∃ s, p.summaries[4]? = some (some s)) ∧
    (¬ ∃ s, p.summaries[2]? = some (some s)) ∧
    Analysis.ofDeclaration sampleContent .standard = .ok a ∧
    a.synthesize? .standard = some (.ok m) ∧
    (∃ conflicts, m.conflicts? sampleContent none = some conflicts) ∧
    compile sampleContent {} none = .ok c ∧
    c.model.validate? [⟨0, 2⟩, ⟨0, 1⟩] = some (c.model.validate [⟨0, 2⟩, ⟨0, 1⟩]) := by
  obtain ⟨-, hpass, hautomaton, hmodel⟩ := pipeline_stays_in_range sampleContent .standard
  have hids : sampleContent.tree.ids = [5, 3, 2, 0, 1, 4] := by
    rw [tree_sampleContent]
    rfl
  -- the walk and the pass
  obtain ⟨n, hn⟩ : ∃ n, Numbering.ofTree .standard sampleContent.tree = .ok n := by
    rw [Numbering.exists_ofTree_iff, tree_sampleContent]
    decide
  have hvisit : sampleContent.visit? .standard = some (.ok (n.visit 6)) := by
    rw [Declaration.visit?_eq, hn]
    rfl
  obtain ⟨p, hp, hholds⟩ := (hpass _ hvisit).2 none 5 (by decide)
  have hroot : 5 ∈ sampleContent.tree.ids := by
    rw [hids]
    decide
  have htaken : ¬ sampleContent.Waits 5 2 := by
    rintro ⟨-, -, hparts⟩
    exact hparts 3 (.quantified .plus 2) (by decide) (by rw [hids]; decide) rfl (by decide)
  -- the automaton and the model
  obtain ⟨a, ha⟩ : ∃ a, Analysis.ofDeclaration sampleContent .standard = .ok a := by
    rw [Analysis.exists_ofDeclaration_iff, tree_sampleContent]
    decide
  have hexact := Analysis.isExact_ofDeclaration ha
  have hroom : 2 ^ (a.leaves.size + 1) ≤ Limits.standard.states := by
    rw [← Array.length_toList, hexact.leaves_eq, tree_sampleContent]
    decide
  obtain ⟨m, hm⟩ := Automaton.exists_ofAnalysis hexact hroom
  obtain ⟨hsynthesize, hconflicts⟩ := hautomaton a ha .standard
  rw [hm] at hsynthesize
  obtain ⟨c, hc⟩ := exists_compile_sampleContent
  exact ⟨_, p, a, m.laidOut, c, hvisit, hp, hholds.parts _ hroot rfl 3 (by decide),
    hholds.parts _ hroot rfl 4 (by decide), mt (hholds.present_iff 2).1 htaken, ha, hsynthesize,
    ⟨_, (hconflicts m hm).1 sampleContent none⟩, hc, (hmodel {} none c hc _).1⟩

end ElementContent
