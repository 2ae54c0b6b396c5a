import ElementContent.Proofs.Content.Lookup
import Mathlib.Logic.Relation

/-!
# Sessions

In a session commands are carried out one after the other, some of which may fail, and limits may be
changed between them. Whatever came before, a command ends with an outcome and leaves alone what the
draft already holds, but for leaves that are given a particle. So every id that was ever given can
be built, and what its content allows is settled when it is given.

- `Draft.Move`: one command with the draft that it leaves behind, or other limits.
- `Draft.LeadsTo`: any number of moves.
- `Command.Fails`: the command is a repetition with bounds that no number meets, or one that is
  too large; one whose size is no word fails too, without an error.
- `Draft.exists_outcome`: what one command does; `Draft.LeadsTo.extends_and_reached` says what moves
  do, one after the other.
-/

namespace ElementContent

/-- The command repeats a node, and the bounds are met by no number or ask for too many copies: for
more than the limit, or for more leaves than there are words. -/
def Command.Fails (c : Command) (d : Draft) : Prop :=
  ∃ node o, c = .repeated node o ∧
    (o.isConsistent = false ∨ UInt64.size ≤ d.expansionSize node o ∨
      d.limits.copies < d.expansionSize node o)

namespace Draft

/-- What happens next in a session, to the draft and to the ids that have been given. Commands name
only ids that were given before. -/
inductive Move : Draft × List Nat → Draft × List Nat → Prop where
  /-- The limits are changed. -/
  | withLimits (d : Draft) (ids : List Nat) (limits : Limits) :
    Move (d, ids) ({ d with limits := limits }, ids)
  /-- A command gives an id. -/
  | given {d d' : Draft} {ids : List Nat} {i : Nat} (c : Command)
    (hc : ∀ operand ∈ c.operands, operand ∈ ids) (hout : d.carryOut c = some (.ok i, d')) :
    Move (d, ids) (d', i :: ids)
  /-- A command fails. -/
  | failed {d d' : Draft} {ids : List Nat} {e : Failure} (c : Command)
    (hc : ∀ operand ∈ c.operands, operand ∈ ids) (hout : d.carryOut c = some (.error e, d')) :
    Move (d, ids) (d', ids)

/-- A session leads from a draft and its ids to others. -/
def LeadsTo : Draft × List Nat → Draft × List Nat → Prop :=
  Relation.ReflTransGen Move

variable {d d' : Draft} {ids : List Nat} {c : Command} {limits : Limits}

theorem perform_eq_error_iff {d : Draft} {c : Command} :
    (∃ e, d.perform c = .error e) ↔ c.Fails d := by
  cases c with
  | leaf | particle | group | quantified | groupOf =>
    refine iff_of_false (by rintro ⟨e, ⟨⟩⟩) ?_
    rintro ⟨_, _, ⟨⟩, -⟩
  | repeated node o =>
    have hfails : (Command.repeated node o).Fails d ↔
        ¬ (o.isConsistent = true ∧ d.expansionSize node o < UInt64.size ∧
          d.expansionSize node o ≤ d.limits.copies) := by
      rw [not_and_or, not_and_or, Bool.not_eq_true, Nat.not_lt, Nat.not_le]
      constructor
      · rintro ⟨_, _, ⟨⟩, h⟩
        exact h
      · exact fun h => ⟨node, o, rfl, h⟩
    rw [hfails]
    cases hout : d.perform (.repeated node o) with
    | ok out =>
      obtain ⟨ho, hlt, hle, -⟩ := repeated_eq_ok_iff.1 hout
      exact iff_of_false (by rintro ⟨e, ⟨⟩⟩) (not_not.2 ⟨ho, hlt, hle⟩)
    | error e =>
      refine iff_of_true ⟨e, rfl⟩ fun ⟨ho, hlt, hle⟩ => ?_
      have hok := repeated_eq_ok_iff.2 ⟨ho, hlt, hle, rfl⟩
      exact nomatch hout.symm.trans hok

/-- A command has an outcome, gives what it should and leaves alone what was there. One that fails
changes nothing. -/
theorem exists_outcome (hd : d.WellFormed) (hc : ∀ operand ∈ c.operands, operand < d.nodes.size) :
    ∃ result d', d.carryOut c = some (result, d') ∧ d.Extends d' ∧
      match result with
      | .ok i => d.perform c = .ok (i, d') ∧ ¬ c.Fails d
      | .error e => d.perform c = .error e ∧ c.Fails d ∧ d' = d := by
  have hout := carryOut_eq hd hc
  have hfails := perform_eq_error_iff (d := d) (c := c)
  cases hperform : d.perform c with
  | ok out =>
    obtain ⟨i, d'⟩ := out
    rw [hperform] at hout hfails
    refine ⟨.ok i, d', hout, (extends_perform hd hc hperform).1, rfl, fun h => ?_⟩
    obtain ⟨e, ⟨⟩⟩ := hfails.2 h
  | error e =>
    rw [hperform] at hout hfails
    exact ⟨.error e, d, hout, .refl d, rfl, hfails.1 ⟨e, rfl⟩, rfl⟩

/-! ## Sessions from the beginning -/

/-- A session that is under way. -/
theorem Move.reached {state : Draft × List Nat} (hmove : Move (d, ids) state) (h : d.Reached ids) :
    d.Extends state.1 ∧ state.1.Reached state.2 := by
  have hlt {c : Command} (hc : ∀ operand ∈ c.operands, operand ∈ ids) :
      ∀ operand ∈ c.operands, operand < d.nodes.size := fun j hj => h.lt_size (hc j hj)
  cases hmove with
  | withLimits _ _ limits =>
    exact ⟨⟨fun i n hn => ⟨n, hn, .refl n⟩, Nat.le_refl _, fun hd => ⟨hd.earlier, hd.declared⟩⟩,
      h.withLimits limits⟩
  | given c hc hout =>
    obtain ⟨result, d', hout', hextends, hresult⟩ := exists_outcome h.wellFormed (hlt hc)
    obtain ⟨rfl, rfl⟩ := Prod.mk.inj (Option.some.inj (hout.symm.trans hout'))
    exact ⟨hextends, h.perform c hc hresult.1⟩
  | failed c hc hout =>
    obtain ⟨result, d', hout', hextends, hresult⟩ := exists_outcome h.wellFormed (hlt hc)
    obtain ⟨rfl, rfl⟩ := Prod.mk.inj (Option.some.inj (hout.symm.trans hout'))
    refine ⟨hextends, ?_⟩
    obtain ⟨-, -, rfl⟩ := hresult
    exact h

namespace LeadsTo

/-- Later moves add to a draft, and lead where the commands that succeed lead. -/
theorem extends_and_reached {state : Draft × List Nat} (hleads : LeadsTo (d, ids) state)
    (h : d.Reached ids) : d.Extends state.1 ∧ state.1.Reached state.2 := by
  induction hleads with
  | refl => exact ⟨.refl d, h⟩
  | tail _ hmove ih =>
    obtain ⟨hextends, hreached⟩ := ih
    obtain ⟨hextends', hreached'⟩ := hmove.reached hreached
    exact ⟨hextends.trans hextends', hreached'⟩

theorem reached (hleads : LeadsTo (.empty limits, []) (d, ids)) : d.Reached ids :=
  (hleads.extends_and_reached (.empty limits)).2

end LeadsTo

/-- What a node allows is settled when it is added. -/
theorem Extends.exists_builds {i : Nat} (h : d.Extends d') (hd : d.WellFormed)
    (hi : i < d.nodes.size) : ∃ before after, d.build i = .ok before ∧ d'.build i = .ok after ∧
      after.tree.children = before.tree.children := by
  obtain ⟨t, rfl, ht⟩ := hd.exists_standsIn hi
  obtain ⟨t', ht', hu⟩ := h.exists_standsIn ht
  obtain ⟨before, hbefore, htree⟩ := hd.exists_build ht
  obtain ⟨after, hafter, htree'⟩ := (h.wellFormed hd).exists_build ht'
  rw [Tree.id_eq_of_untagged hu] at hafter
  refine ⟨before, after, hbefore, hafter, ?_⟩
  rw [htree, htree', Tree.children_eq_of_untagged hu]

end Draft

/-- At any time in a session, every id that has been given can be built. Any command that names such
ids has an outcome, so it looks up no copy that has not been made, and adds to the draft; only a
repetition may fail, and it then leaves the draft as it was. Whatever comes later, the nodes that
there are allow the children that they allow now. -/
theorem session_keeps_nodes {limits : Limits} {d : Draft} {ids : List Nat}
    (h : Draft.LeadsTo (.empty limits, []) (d, ids)) :
    (∀ i ∈ ids, ∃ decl, d.build i = .ok decl) ∧
    (∀ c : Command, (∀ operand ∈ c.operands, operand ∈ ids) →
      ∃ result d', d.carryOut c = some (result, d') ∧ d.Extends d' ∧
        match result with
        | .ok i => d.perform c = .ok (i, d') ∧ ¬ c.Fails d
        | .error e => d.perform c = .error e ∧ c.Fails d ∧ d' = d) ∧
    ∀ d' ids', Draft.LeadsTo (d, ids) (d', ids') → ∀ i < d.nodes.size,
      ∃ before after, d.build i = .ok before ∧ d'.build i = .ok after ∧
        after.tree.children = before.tree.children := by
  have hreached := h.reached
  have hd := hreached.wellFormed
  refine ⟨fun i hi => ?_, fun c hc => ?_, fun d' ids' hlater i hi => ?_⟩
  · obtain ⟨decl, -, hdecl, -⟩ := (Draft.Extends.refl d).exists_builds hd (hreached.lt_size hi)
    exact ⟨decl, hdecl⟩
  · exact Draft.exists_outcome hd fun j hj => hreached.lt_size (hc j hj)
  · exact (hlater.extends_and_reached hreached).1.exists_builds hd hi

/-- A draft with a leaf, `a`, that belongs to no particle, and the sequence of the leaf with itself.
-/
def twiceDraft : Draft :=
  (((Draft.empty .standard).leaf (.ofSymbol ⟨0, 1⟩)).2.group .sequence 0 0).2

theorem session_keeps_nodes_twiceDraft :
    (∃ e, twiceDraft.carryOut (.repeated 1 ⟨3, some 2⟩) = some (.error e, twiceDraft)) ∧
    ∃ i d' before after, twiceDraft.carryOut (.repeated 1 ⟨2, some 3⟩) = some (.ok i, d') ∧
      twiceDraft.build 0 = .ok before ∧ d'.build 0 = .ok after ∧
      after.tree.children = before.tree.children := by
  have hleads : Draft.LeadsTo (.empty .standard, []) (twiceDraft, [1, 0]) := by
    have hleaf : Draft.Move (.empty .standard, [])
        (((Draft.empty .standard).leaf (.ofSymbol ⟨0, 1⟩)).2, [0]) :=
      .given (.leaf (.ofSymbol ⟨0, 1⟩)) (by simp [Command.operands]) rfl
    exact .tail (.single hleaf) (.given (.group .sequence 0 0) (by simp [Command.operands]) rfl)
  obtain ⟨-, houtcome, hlater⟩ := session_keeps_nodes hleads
  refine ⟨?_, ?_⟩
  · obtain ⟨result, d', hout, -, hresult⟩ :=
      houtcome (.repeated 1 ⟨3, some 2⟩) (by simp [Command.operands])
    cases result with
    | ok i => exact absurd ⟨1, ⟨3, some 2⟩, rfl, .inl rfl⟩ hresult.2
    | error e =>
      obtain ⟨-, -, rfl⟩ := hresult
      exact ⟨e, hout⟩
  · obtain ⟨result, d', hout, -, hresult⟩ :=
      houtcome (.repeated 1 ⟨2, some 3⟩) (by simp [Command.operands])
    cases result with
    | ok i =>
      obtain ⟨before, after, hbefore, hafter, hchildren⟩ := hlater d' (i :: [1, 0])
        (.single (.given (.repeated 1 ⟨2, some 3⟩) (by simp [Command.operands]) hout)) 0
        (by decide)
      exact ⟨i, d', before, after, hout, hbefore, hafter, hchildren⟩
    | error e =>
      obtain ⟨_, _, ⟨⟩, hfails⟩ := hresult.2.1
      exact absurd hfails (by decide +kernel)

end ElementContent
