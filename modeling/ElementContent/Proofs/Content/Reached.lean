import ElementContent.Proofs.Content.Repetition

/-!
# Drafts that commands lead to

Whatever commands have been carried out, the draft is in order and the ids that were given are those
of its nodes. So a content can be built from each of them at any time.

- `Draft.Reached`: the drafts that commands lead to, with the ids that they gave.
- `Draft.extends_perform`: what one command does.
- `Draft.Reached.wellFormed`, `Draft.Reached.lt_size`: what holds after any number of commands.

The last section says what a particle under occurrence bounds allows, whatever came before.
-/

namespace ElementContent

namespace Draft

/-- Commands have led to the draft and given the ids; each named only ids that were given before it.
A command that fails leaves the draft as it is, and limits may be changed at any time. -/
inductive Reached : Draft → List Nat → Prop where
  /-- No command yet. -/
  | empty (limits : Limits) : Reached (.empty limits) []
  /-- Other limits. -/
  | withLimits {d : Draft} {ids : List Nat} (h : Reached d ids) (limits : Limits) :
    Reached { d with limits := limits } ids
  /-- One command more. -/
  | perform {d d' : Draft} {ids : List Nat} {i : Nat} (h : Reached d ids) (c : Command)
    (hc : ∀ operand ∈ c.operands, operand ∈ ids) (hok : d.perform c = .ok (i, d')) :
    Reached d' (i :: ids)

variable {d d' : Draft} {ids : List Nat} {i : Nat}

theorem WellFormed.exists_trees (h : d.WellFormed) {items : List Nat}
    (hitems : ∀ i ∈ items, i < d.nodes.size) :
    ∃ ts : List Tree, ts.map Tree.id = items ∧ ∀ t ∈ ts, t.StandsIn d.nodes := by
  induction items with
  | nil => exact ⟨[], rfl, by simp⟩
  | cons i items ih =>
    obtain ⟨hi, hrest⟩ := List.forall_mem_cons.1 hitems
    obtain ⟨t, rfl, ht⟩ := h.exists_standsIn hi
    obtain ⟨ts, rfl, hts⟩ := ih hrest
    exact ⟨t :: ts, rfl, List.forall_mem_cons.2 ⟨ht, hts⟩⟩

/-- A command adds to a draft in order and gives the id of one of its nodes. -/
theorem extends_perform {c : Command} (hd : d.WellFormed)
    (hc : ∀ operand ∈ c.operands, operand < d.nodes.size) (hok : d.perform c = .ok (i, d')) :
    d.Extends d' ∧ i < d'.nodes.size := by
  have hadded : ∀ (d : Draft) (n : Node Nat), (d.add n).1 < (d.add n).2.nodes.size := by simp
  cases c with
  | leaf term =>
    cases hok
    exact ⟨(d.grows_leaf term).extends, hadded d _⟩
  | particle label term =>
    cases hok
    exact ⟨(d.grows_particle label term).extends, hadded _ _⟩
  | group kind l r =>
    cases hok
    exact ⟨(grows_group kind (hc l (by simp [Command.operands]))
      (hc r (by simp [Command.operands]))).extends, hadded d _⟩
  | quantified q body =>
    cases hok
    exact ⟨(grows_quantify q (hc body (by simp [Command.operands]))).extends, hadded d _⟩
  | groupOf kind items =>
    obtain ⟨ts, rfl, hts⟩ := hd.exists_trees hc
    cases ts with
    | nil =>
      cases hok
      exact ⟨(d.grows_leaf .empty).extends, hadded d _⟩
    | cons t ts =>
      obtain ⟨hgrows, hid, hstands⟩ := standsIn_joined kind hts
      have hout : groupFrom kind t.id (ts.map Tree.id) d = (i, d') := Except.ok.inj hok
      rw [hout] at hgrows hid hstands
      refine ⟨hgrows.extends, ?_⟩
      rw [show i = _ from hid]
      exact hstands.lt_size (Tree.id_mem_ids _)
  | repeated node o =>
    obtain ⟨ho, -, -, hout⟩ := repeated_eq_ok_iff.1 hok
    obtain ⟨t, rfl, ht⟩ := hd.exists_standsIn (hc node (by simp [Command.operands]))
    obtain ⟨r, hid, hextends, hr, -⟩ := exists_expand hd ht ho
    rw [hout] at hid hextends hr
    refine ⟨hextends, ?_⟩
    rw [show i = _ from hid]
    exact hr.lt_size r.id_mem_ids

namespace Reached

theorem wellFormed_and_lt_size (h : d.Reached ids) :
    d.WellFormed ∧ ∀ i ∈ ids, i < d.nodes.size := by
  induction h with
  | empty limits => exact ⟨wellFormed_empty limits, by simp⟩
  | withLimits h limits ih => exact ⟨⟨ih.1.earlier, ih.1.declared⟩, ih.2⟩
  | perform h c hc hok ih =>
    obtain ⟨hd, hlt⟩ := ih
    obtain ⟨hextends, hi⟩ := extends_perform hd (fun j hj => hlt j (hc j hj)) hok
    exact ⟨hextends.wellFormed hd, List.forall_mem_cons.2
      ⟨hi, fun j hj => Nat.lt_of_lt_of_le (hlt j hj) hextends.size_le⟩⟩

theorem wellFormed (h : d.Reached ids) : d.WellFormed :=
  h.wellFormed_and_lt_size.1

theorem lt_size (h : d.Reached ids) (hi : i ∈ ids) : i < d.nodes.size :=
  h.wellFormed_and_lt_size.2 i hi

end Reached

end Draft

/-- Whatever commands came before, a particle under occurrence bounds that is given an id allows the
children that it allows as often as the bounds let it stand. Unless it may not stand at all, it has
as many leaves as there are copies of those before, and it is a tree if it was one before. -/
theorem repeated_spells_out {d d' : Draft} {ids : List Nat} {node i : Nat} {o : Occurrence}
    (h : d.Reached ids) (hnode : node ∈ ids) (hok : d.repeated node o = .ok (i, d')) :
    ∃ before after, d.build node = .ok before ∧ d'.build i = .ok after ∧
      (∀ w, after.tree.children w ↔ ∃ n, o.allows n ∧ before.tree.children.power n w) ∧
      (o.max ≠ some 0 → after.tree.leafCount = o.copies * before.tree.leafCount) ∧
      (¬ before.Shared → ¬ after.Shared) := by
  obtain ⟨ho, -, -, hout⟩ := Draft.repeated_eq_ok_iff.1 hok
  obtain ⟨t, rfl, ht⟩ := h.wellFormed.exists_standsIn (h.lt_size hnode)
  obtain ⟨r, hid, hextends, hr, hchildren, hleafCount, hnodup⟩ :=
    Draft.exists_expand h.wellFormed ht ho
  rw [hout] at hid hextends hr
  obtain ⟨before, hbefore, htree⟩ := h.wellFormed.exists_build ht
  obtain ⟨after, hafter, htree'⟩ := (hextends.wellFormed h.wellFormed).exists_build hr
  refine ⟨before, after, hbefore, ?_, fun w => ?_, ?_, ?_⟩
  · rw [← hafter, ← hid]
  · rw [htree, htree', hchildren]
    rfl
  · rwa [htree, htree']
  · rw [Declaration.shared_iff, Declaration.shared_iff, not_not, not_not, htree, htree']
    exact hnodup

/-- A draft with one particle, `a`. -/
def sampleDraft : Draft :=
  ((Draft.empty .standard).particle "a" (.ofSymbol ⟨0, 1⟩)).2

theorem repeated_spells_out_sampleDraft : ∃ out after,
    sampleDraft.repeated 0 ⟨2, some 4⟩ = .ok out ∧ out.2.build out.1 = .ok after ∧
      after.tree.children [⟨0, 1⟩, ⟨0, 1⟩] ∧ after.tree.leafCount = 4 ∧ ¬ after.Shared := by
  have hreached : sampleDraft.Reached [0] :=
    .perform (.empty .standard) (.particle "a" (.ofSymbol ⟨0, 1⟩)) (by simp [Command.operands]) rfl
  have hok : sampleDraft.repeated 0 ⟨2, some 4⟩ = .ok (sampleDraft.expand 0 ⟨2, some 4⟩) :=
    Draft.repeated_eq_ok_iff.2 ⟨rfl, by decide, by decide, rfl⟩
  obtain ⟨before, after, hbefore, hafter, hchildren, hleafCount, hshared⟩ :=
    repeated_spells_out hreached List.mem_cons_self hok
  have hleaf : (Tree.leaf 0 (.ofSymbol ⟨0, 1⟩) (some 0)).StandsIn sampleDraft.nodes :=
    Tree.standsIn_leaf.2 rfl
  obtain ⟨decl, hdecl, htree⟩ := hreached.wellFormed.exists_build hleaf
  obtain rfl : decl = before := Except.ok.inj (hdecl.symm.trans hbefore)
  rw [htree] at hchildren hleafCount
  rw [Declaration.shared_iff, htree] at hshared
  have hone : (Tree.leaf 0 (.ofSymbol ⟨0, 1⟩) (some 0)).children [⟨0, 1⟩] := ⟨⟨0, 1⟩, rfl, rfl⟩
  refine ⟨_, after, hok, hafter, (hchildren _).2 ⟨2, ⟨by decide, ?_⟩, ?_⟩, ?_, ?_⟩
  · rintro _ ⟨⟩
    decide
  · exact Language.power_add (Language.power_one.2 hone) (Language.power_one.2 hone)
  · exact hleafCount (by decide)
  · exact hshared (not_not.2 (List.nodup_singleton 0))

end ElementContent
