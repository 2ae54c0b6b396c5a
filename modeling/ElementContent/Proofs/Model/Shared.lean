import ElementContent.Proofs.Content.Standing
import ElementContent.Proofs.Model.Compile

/-!
# Nodes that are met twice

A declaration should not compile if two paths lead from its root to one node, for it is no tree.
Only the walk over the tree finds this out, and where neither an automaton nor a check of
attribution is asked for, there is no walk.

- `Declaration.automaton_error_of_shared`: the walk finds a shared node, whatever the limits are.
- `Model.strategyFor_eq_automaton_iff`: an automaton is made where no shortcut is there.

A declaration that shares a node fails to compile exactly if an automaton is built for it; a pair of
one leaf with itself is checked directly and compiles.
-/

namespace ElementContent

/-- No automaton is built for a declaration that shares a node. -/
theorem Declaration.automaton_error_of_shared {d : Declaration} (h : d.Shared) (limits : Limits) :
    ∃ e, d.automaton limits = .error e := by
  cases ha : d.automaton limits with
  | error e => exact ⟨e, rfl⟩
  | ok m =>
    obtain ⟨a, ha, -⟩ := automaton_eq_ok_iff.1 ha
    exact absurd (Analysis.isExact_ofDeclaration ha).nodup (shared_iff.1 h)

/-- The strategy is the automaton exactly if no shortcut is there. -/
theorem Model.strategyFor_eq_automaton_iff {d : Declaration} {wantDirect wantMixed : Bool} :
    strategyFor d wantDirect wantMixed = .automaton ↔ shortcut? d wantDirect wantMixed = none := by
  unfold strategyFor
  cases hm : shortcut? d wantDirect wantMixed with
  | none => simp
  | some m =>
    refine iff_of_false (fun hs => ?_) (by simp)
    rcases direct_or_mixed_of_shortcut? hm with ⟨m, -, rfl⟩ | ⟨m, -, rfl⟩ <;> cases hs

/-- A declaration that shares a node fails to compile exactly if an automaton is built for it, be it
for its children or for the check of attribution. -/
theorem compile_error_iff_of_shared {d : Declaration} (h : d.Shared) (o : CompileOptions)
    (table : Option NameTable) : (∃ e, compile d o table = .error e) ↔
      Model.strategyFor d o.wantDirect o.wantMixed = .automaton ∨ o.checksAttribution = true := by
  obtain ⟨e, he⟩ := Declaration.automaton_error_of_shared h o.limits
  rw [Model.strategyFor_eq_automaton_iff]
  unfold compile
  cases hm : Model.shortcut? d o.wantDirect o.wantMixed with
  | none => exact iff_of_true ⟨e, by simp [he, bind, Except.bind]⟩ (.inl rfl)
  | some m =>
    cases hc : o.checksAttribution with
    | true => exact iff_of_true ⟨e, by simp [he, bind, Except.bind]⟩ (.inr rfl)
    | false => exact iff_of_false (by simp) (by simp)

/-- The content `a, a`, where both operands are the same leaf. -/
def sharedPair : Declaration where
  nodes := #[.leaf (.element ⟨0, 1⟩) none, .group .sequence 0 0]
  root := 1
  labels := #[]
  root_lt := by decide
  earlier := by decide

/-- Its nodes are accepted: every operand stands before its group. -/
theorem ofParts_sharedPair : Declaration.ofParts
    #[.leaf (.element ⟨0, 1⟩) none, .group .sequence 0 0] 1 #[] = .ok sharedPair :=
  rfl

theorem shared_sharedPair : sharedPair.Shared :=
  ⟨[0], [1], 0, by decide, rfl, rfl⟩

theorem compile_error_sharedPair : ∃ d, Declaration.ofParts
      #[.leaf (.element ⟨0, 1⟩) none, .group .sequence 0 0] 1 #[] = .ok d ∧ d.Shared ∧
    ∃ e, compile d { kind := .schema } none = .error e :=
  ⟨sharedPair, ofParts_sharedPair, shared_sharedPair,
    (compile_error_iff_of_shared shared_sharedPair _ _).2 (.inr rfl)⟩

/-- A pair of one leaf with itself is accepted, and with the options that stand where nothing else is
said it compiles. -/
theorem compile_ok_sharedPair : ∃ d, Declaration.ofParts
      #[.leaf (.element ⟨0, 1⟩) none, .group .sequence 0 0] 1 #[] = .ok d ∧ d.Shared ∧
    ∃ c, compile d {} none = .ok c :=
  ⟨sharedPair, ofParts_sharedPair, shared_sharedPair, _, rfl⟩

end ElementContent
