import ElementContent.Proofs.Content.Reached

/-!
# How deep a repeated particle is

A content is as deep as the lowest limit says with which the walk comes to its end. Whatever bounds
a particle is put under, it becomes at most two levels deeper: one for the sequence of its copies
and one for a quantifier, if the particle is one itself.

- `Declaration.WalkedDepth`: the limits that the walk over a content needs.
- `repeated_stays_shallow`: a particle before and after it is put under occurrence bounds.
- `Draft.exists_deep_spellOut`: copies that may be missing, from below; both levels are needed if
  the particle is a quantifier.
-/

namespace ElementContent

/-- The walk over the content comes to its end with just those limits that allow `n` levels. -/
def Declaration.WalkedDepth (d : Declaration) (n : Nat) : Prop :=
  ∀ limits : Limits, (∃ k, Numbering.ofTree limits d.tree = .ok k) ↔ n ≤ limits.depth

namespace Declaration

variable {d : Declaration} {n : Nat}

/-- Where no node is shared, the walk needs the levels of the deepest group or quantifier. -/
theorem walkedDepth_iff (h : ¬ d.Shared) :
    d.WalkedDepth n ↔ n = d.tree.deepest 0 none false := by
  rw [shared_iff, not_not] at h
  simp only [WalkedDepth, Numbering.exists_ofTree_iff, h, true_and]
  constructor
  · intro hall
    -- either depth is a limit that the other one is within
    have hle := (hall { Limits.standard with depth := n }).2 (Nat.le_refl n)
    have hge := (hall { Limits.standard with depth := d.tree.deepest 0 none false }).1
      (Nat.le_refl _)
    exact Nat.le_antisymm hge hle
  · rintro rfl limits
    rfl

/-- The walk does not come to its end where a level is too deep. -/
theorem WalkedDepth.deepest_le (h : d.WalkedDepth n) : d.tree.deepest 0 none false ≤ n :=
  (Numbering.exists_ofTree_iff.1 ((h { Limits.standard with depth := n }).2 (Nat.le_refl n))).2

end Declaration

/-- Whatever commands came before, a particle without shared nodes that is put under occurrence
bounds becomes at most two levels deeper, whatever the bounds are. -/
theorem repeated_stays_shallow {d d' : Draft} {ids : List Nat} {node i : Nat} {o : Occurrence}
    (h : d.Reached ids) (hnode : node ∈ ids) (hok : d.repeated node o = .ok (i, d')) :
    ∃ before after, d.build node = .ok before ∧ d'.build i = .ok after ∧
      (¬ before.Shared →
        ∃ m n, before.WalkedDepth m ∧ after.WalkedDepth n ∧ n ≤ m + 2) := by
  obtain ⟨ho, -, -, hout⟩ := Draft.repeated_eq_ok_iff.1 hok
  obtain ⟨t, rfl, ht⟩ := h.wellFormed.exists_standsIn (h.lt_size hnode)
  obtain ⟨r, hid, hextends, hr, hnodup, hle, -⟩ :=
    Draft.exists_bounded_expand h.wellFormed ht ho
  rw [hout] at hid hextends hr
  obtain rfl : i = r.id := hid
  obtain ⟨before, hbefore, htree⟩ := h.wellFormed.exists_build ht
  obtain ⟨after, hafter, htree'⟩ := (hextends.wellFormed h.wellFormed).exists_build hr
  refine ⟨before, after, hbefore, hafter, fun hshared => ?_⟩
  have hshared' : ¬ after.Shared := by
    rw [Declaration.shared_iff, not_not] at hshared ⊢
    rw [htree']
    exact hnodup (htree ▸ hshared)
  refine ⟨_, _, (Declaration.walkedDepth_iff hshared).2 rfl,
    (Declaration.walkedDepth_iff hshared').2 rfl, ?_⟩
  rwa [htree, htree']

/-! ## Both levels are needed -/

namespace Draft

variable {d : Draft} {x t : Tree} {s : Subtree} {bound max : Nat}

/-- The innermost of several nested copies stands under its quantifier without a sequence between
them. -/
theorem exists_deep_optionals (hd : d.WellFormed) (hx : x.StandsIn d.nodes) (hs : s.Lists x)
    (hbound : bound ≤ x.deepest 1 (some .sequence) true) (n : Nat) (inner : Option Tree)
    (hinner : ∀ w ∈ inner, w.StandsIn d.nodes ∧ bound ≤ w.deepest 1 (some .sequence) false)
    (hsome : n = 0 → inner ≠ none) : ∃ outer : Tree,
      (optionals s n (inner.map Tree.id) d).1 = some outer.id ∧
        d.Grows (optionals s n (inner.map Tree.id) d).2 ∧
        outer.StandsIn (optionals s n (inner.map Tree.id) d).2.nodes ∧
        bound ≤ outer.deepest 1 (some .sequence) false := by
  induction n generalizing d inner with
  | zero =>
    obtain ⟨w, rfl⟩ := Option.ne_none_iff_exists'.1 (hsome rfl)
    obtain ⟨hw, hdeep⟩ := hinner w rfl
    exact ⟨w, rfl, .refl d, hw, hdeep⟩
  | succ n ih =>
    obtain ⟨u, hidu, hgrowsu, hu, hdeepest⟩ := spellsOut_copy hd hx hs
    have hstands : ∀ v ∈ u :: inner.toList, v.StandsIn (d.copy s).2.nodes :=
      List.forall_mem_cons.2 ⟨hu.holds.stands u List.mem_cons_self,
        fun w hw => hgrowsu.stands (hinner w (Option.mem_toList.1 hw)).1⟩
    obtain ⟨hgrowsb, hidb, hbody⟩ := standsIn_joined .sequence hstands
    obtain ⟨hgrowsw, hw⟩ := standsIn_quantify .optional hbody
    have hgrows := (hgrowsu.trans hgrowsb).trans hgrowsw
    have hdeep : bound ≤ (Tree.joined .sequence (d.copy s).2.nodes.size u inner.toList).deepest 1
        (some .sequence) true := by
      cases inner with
      | none =>
        show bound ≤ u.deepest 1 (some .sequence) true
        rwa [hdeepest]
      | some w =>
        refine Nat.le_trans (hinner w rfl).2 ?_
        show _ ≤ (Tree.group _ .sequence u w).deepest 1 (some .sequence) true
        rw [Tree.deepest_group, Numbering.groupDepth_self]
        omega
    -- the new tree goes inside the next one
    have hnext := Nat.le_trans hdeep (Nat.le_max_right (Numbering.quantifierDepth 1 false) _)
    obtain ⟨outer, hid, hgrows', houter⟩ := ih (hgrows.wellFormed hd) (hgrows.stands hx)
      (some (.quantified _ .optional _)) (fun w h => Option.some.inj h ▸ ⟨hw, hnext⟩) (by simp)
    rw [Option.map_some] at hid hgrows' houter
    rw [optionals_succ, Option.toList_map, hidu]
    dsimp only
    rw [hidb]
    exact ⟨outer, hid, hgrows.trans hgrows', houter⟩

/-- Where all of several copies may be missing, the particle stands in a sequence and under one
quantifier more. -/
theorem exists_deep_spellOut (hd : d.WellFormed) (ht : t.StandsIn d.nodes) (hmax : 2 ≤ max) :
    ∃ r : Tree, (d.spellOut t.id 0 (some max)).1 = r.id ∧
      r.StandsIn (d.spellOut t.id 0 (some max)).2.nodes ∧
      t.deepest 1 (some .sequence) true ≤ r.deepest 0 none false := by
  have htag := d.extends_tag (d.subtree t.id)
  obtain ⟨x, hx, hu⟩ := htag.exists_standsIn ht
  have hs := (hd.lists_subtree ht).of_untagged hu
  obtain ⟨outer, hid, hgrows, houter, hdeep⟩ := exists_deep_optionals (htag.wellFormed hd) hx hs
    (Nat.le_refl _) (max - 1) none (by simp) (by omega)
  obtain ⟨hgrowsb, hbody⟩ := standsIn_group .sequence (hgrows.stands hx) houter
  obtain ⟨-, hr⟩ := standsIn_quantify .optional hbody
  rw [Option.map_none] at hid hgrows houter hgrowsb hbody hr
  have hout : d.spellOut t.id 0 (some max) =
      let inner := optionals (d.subtree t.id) (max - 1) none (d.tag (d.subtree t.id))
      let body := inner.2.group .sequence x.id outer.id
      body.2.quantify .optional body.1 := by
    unfold spellOut
    dsimp only
    rw [if_pos rfl, hid, Tree.id_eq_of_untagged hu]
  rw [hout, ← Tree.deepest_eq_of_untagged hu]
  refine ⟨_, rfl, hr, ?_⟩
  have hlevel : Numbering.groupDepth (Numbering.quantifierDepth 0 false) none .sequence = 1 := rfl
  rw [Tree.deepest_quantified, Tree.deepest_group, hlevel]
  omega

end Draft

/-- A draft with a particle that may be missing, `a?`. -/
def optionalDraft : Draft :=
  (sampleDraft.quantify .optional 0).2

/-- Two hundred copies of `a?`, which needs no level, need just two. -/
theorem repeated_stays_shallow_optionalDraft : ∃ out before after,
    optionalDraft.repeated 1 ⟨0, some 200⟩ = .ok out ∧
      optionalDraft.build 1 = .ok before ∧ before.WalkedDepth 0 ∧
      out.2.build out.1 = .ok after ∧ after.tree.leafCount = 200 ∧ after.WalkedDepth 2 := by
  have hreached : optionalDraft.Reached [1, 0] :=
    .perform (.perform (.empty .standard) (.particle "a" (.ofSymbol ⟨0, 1⟩))
      (by simp [Command.operands]) rfl) (.quantified .optional 0) (by simp [Command.operands]) rfl
  obtain ⟨⟨i, d'⟩, hout⟩ : ∃ out, optionalDraft.expand 1 ⟨0, some 200⟩ = out := ⟨_, rfl⟩
  have hok : optionalDraft.repeated 1 ⟨0, some 200⟩ = .ok (i, d') :=
    Draft.repeated_eq_ok_iff.2 ⟨rfl, by decide, by decide, hout⟩
  obtain ⟨before, after, hbefore, hafter, hlevels⟩ :=
    repeated_stays_shallow hreached List.mem_cons_self hok
  -- the particle is a quantifier over a leaf, and needs no level
  have hstands : (Tree.quantified 1 .optional (.leaf 0 (.ofSymbol ⟨0, 1⟩) (some 0))).StandsIn
      optionalDraft.nodes := Tree.standsIn_quantified.2 ⟨rfl, Tree.standsIn_leaf.2 rfl⟩
  have htree := hreached.wellFormed.tree_of_build hstands hbefore
  have hshared : ¬ before.Shared := by
    rw [Declaration.shared_iff, htree]
    decide
  obtain ⟨m, n, hm, hn, hle⟩ := hlevels hshared
  obtain rfl : m = 0 := by
    rw [Declaration.walkedDepth_iff hshared, htree] at hm
    exact hm
  -- the tree that is built has the leaves of all copies and is as deep as the innermost one
  obtain ⟨r, hid, hextends, hr, -, hleaves, -⟩ :=
    Draft.exists_expand hreached.wellFormed hstands (o := ⟨0, some 200⟩) rfl
  obtain ⟨r', hid', hr', hdeep⟩ :=
    Draft.exists_deep_spellOut hreached.wellFormed hstands (by decide : 2 ≤ 200)
  have hspelled : optionalDraft.spellOut 1 0 (some 200) = (i, d') := hout
  rw [show Tree.id (.quantified 1 _ _) = 1 from rfl] at hid hextends hr hid' hr'
  rw [hout] at hid hextends hr
  rw [hspelled] at hid' hr'
  have hunique : ∀ {r : Tree}, i = r.id → r.StandsIn d'.nodes → after.tree = r := by
    rintro r rfl hr
    exact (hextends.wellFormed hreached.wellFormed).tree_of_build hr hafter
  obtain rfl := hunique hid hr
  obtain rfl := hunique hid' hr'
  obtain rfl : 2 = n := Nat.le_antisymm (Nat.le_trans hdeep hn.deepest_le) hle
  exact ⟨_, before, after, hok, hbefore, hm, hafter, hleaves (by decide), hn⟩

end ElementContent
