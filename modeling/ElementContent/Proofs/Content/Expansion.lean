import ElementContent.Proofs.Content.Reached

/-!
# How large a spelled out particle is

The number of leaves that bounds ask for is compared with a limit, but it is a product that has to
be a 64-bit word. Nodes may be shared, so a few commands make a node with many leaves, and there are
bounds for which the product is no word: where the limit should be reported, the program stops.

- `Draft.leafCount_eq`: the leaves below a node are counted right.
- `Draft.doubled`: drafts whose leaves double with every command.
- `expansion_within_limit`: for which contents the product is a word whatever the bounds are, and
  what the limit is good for; `expansion_overflows` is about a content with a product that is none.
-/

namespace ElementContent

namespace Draft

variable {d : Draft} {counts : Array Nat} {t : Tree}

/-! ## Counting leaves -/

/-- The counts are those of the trees on the first nodes. -/
def Counts (d : Draft) (counts : Array Nat) : Prop :=
  ∀ t : Tree, t.StandsIn d.nodes → t.id < counts.size → counts.getD t.id 0 = t.leafCount

/-- The next node has one leaf or those of its parts, which have been counted. -/
theorem counts_push {n : Node Nat} (hd : d.WellFormed) (h : d.Counts counts)
    (hn : d.nodes[counts.size]? = some n) :
    d.Counts (counts.push (match n.map (fun c => counts.getD c 0) with
      | .leaf _ _ => 1
      | .group _ left right => left + right
      | .quantified _ body => body)) := by
  intro t ht hlt
  rw [Array.size_push] at hlt
  rw [Array.getD_eq_getD_getElem?, Array.getElem?_push]
  split
  · next hid =>
    have hpart : ∀ u ∈ t.parts, counts.getD u.id 0 = u.leafCount := fun u hu =>
      h u (ht.part hu) (hid ▸ hd.lt_of_part ht (Tree.self_mem_subtrees t) hu)
    obtain rfl : t.node = n := Option.some.inj (ht.getElem?.symm.trans (hid ▸ hn))
    cases t with
    | leaf i term particle => rfl
    | group i kind l r =>
      exact congrArg₂ (· + ·) (hpart l List.mem_cons_self)
        (hpart r (List.mem_cons_of_mem _ List.mem_cons_self))
    | quantified i q body => exact hpart body List.mem_cons_self
  · next hid =>
    rw [← Array.getD_eq_getD_getElem?]
    exact h t ht (by omega)

/-- Leaves are counted as often as they are met. -/
theorem leafCount_eq (hd : d.WellFormed) (ht : t.StandsIn d.nodes) :
    d.leafCount t.id = t.leafCount := by
  have hcounts : d.leafCounts.size = d.nodes.size ∧ d.Counts d.leafCounts := by
    have hstart : d.Counts #[] := fun t _ hlt => absurd hlt (Nat.not_lt_zero _)
    unfold leafCounts
    refine Array.foldl_induction (motive := fun i counts => counts.size = i ∧ d.Counts counts)
      ⟨rfl, hstart⟩ ?_
    rintro i counts ⟨hsize, hcounts⟩
    refine ⟨by rw [Array.size_push, hsize], counts_push hd hcounts ?_⟩
    rw [hsize]
    exact Array.getElem?_eq_getElem i.isLt
  exact hcounts.2 t ht (hcounts.1 ▸ ht.lt_size t.id_mem_ids)

end Draft

/-! ## Leaves that double -/

/-- A draft with a leaf and `n` sequences, each of them twice what was there before. -/
def Draft.doubled : Nat → Draft
  | 0 => ((Draft.empty .standard).leaf (.element ⟨0, 0⟩)).2
  | n + 1 => ((doubled n).group .sequence n n).2

/-- The tree of the last node of such a draft. -/
def Tree.doubled : Nat → Tree
  | 0 => .leaf 0 (.element ⟨0, 0⟩) none
  | n + 1 => .group (n + 1) .sequence (doubled n) (doubled n)

section Doubled

variable {m n : Nat}

theorem Tree.id_doubled (n : Nat) : (Tree.doubled n).id = n := by
  cases n <;> rfl

theorem Tree.leafCount_doubled (n : Nat) : (Tree.doubled n).leafCount = 2 ^ n := by
  induction n with
  | zero => rfl
  | succ n ih => rw [doubled, leafCount, ih, Nat.pow_succ, Nat.mul_two]

namespace Draft

theorem size_doubled (n : Nat) : (doubled n).nodes.size = n + 1 := by
  induction n with
  | zero => rfl
  | succ n ih => rw [doubled, group, size_add, ih]

theorem limits_doubled (n : Nat) : (doubled n).limits = .standard := by
  induction n with
  | zero => rfl
  | succ n ih => exact ih

theorem Reached.group {d : Draft} {ids : List Nat} {l r : Nat} (h : d.Reached ids)
    (kind : GroupKind) (hl : l ∈ ids) (hr : r ∈ ids) :
    (d.group kind l r).2.Reached (d.nodes.size :: ids) :=
  .perform h (.group kind l r) (by simp [Command.operands, hl, hr]) rfl

theorem reached_doubled (n : Nat) : (doubled n).Reached (List.range (n + 1)).reverse := by
  induction n with
  | zero =>
    exact .perform (.empty .standard) (.leaf (.element ⟨0, 0⟩)) (by simp [Command.operands]) rfl
  | succ n ih =>
    have hgroup := ih.group .sequence (l := n) (r := n) (by simp) (by simp)
    rw [size_doubled] at hgroup
    rwa [List.range_succ, List.reverse_append, List.reverse_singleton]

theorem standsIn_doubled (n : Nat) : (Tree.doubled n).StandsIn (doubled n).nodes := by
  induction n with
  | zero => exact standsIn_leaf _ _
  | succ n ih =>
    have hgroup := (standsIn_group .sequence ih ih).2
    rwa [Tree.id_doubled, size_doubled] at hgroup

theorem grows_doubled (h : m ≤ n) : (doubled m).Grows (doubled n) := by
  induction h with
  | refl => exact .refl _
  | @step n _ ih =>
    have hlt : n < (doubled n).nodes.size := by simp [size_doubled]
    exact ih.trans (grows_group .sequence hlt hlt)

end Draft

end Doubled

/-! ## The product -/

section Product

variable {d : Draft} {ids : List Nat} {node leaves : Nat} {o : Occurrence}

theorem Occurrence.copies_lt (o : Occurrence) : o.copies < UInt32.size := by
  unfold copies
  split
  · next max _ => exact max.toNat_lt
  · exact Nat.max_lt.2 ⟨o.min.toNat_lt, by decide⟩

/-- A product over the limit is reported if it is a word. -/
theorem Draft.repeated_of_lt (ho : o.isConsistent = true)
    (hlt : d.expansionSize node o < UInt64.size)
    (hlimit : d.limits.copies < d.expansionSize node o) : d.repeated node o =
      .error (.reported (.overLimit .copies (d.expansionSize node o) d.limits.copies)) := by
  rw [repeated_eq_error_iff, checkExpansion, if_pos ho, if_pos hlt, Limits.check, Limits.bound,
    if_pos hlimit]
  rfl

/-- The product is a word whatever the bounds are, if and only if there is at most one leaf more
than there are 32-bit words. -/
theorem Occurrence.forall_mul_lt_iff :
    (∀ o : Occurrence, o.isConsistent = true → o.copies * leaves < UInt64.size) ↔
      leaves ≤ 2 ^ 32 + 1 := by
  constructor
  · intro h
    have hgreatest : 4294967295 * leaves < UInt64.size := h ⟨4294967295, none⟩ rfl
    have hsize : UInt64.size = 18446744073709551616 := rfl
    omega
  · intro hle o _
    have hcopies : o.copies ≤ 2 ^ 32 - 1 := Nat.le_pred_of_lt o.copies_lt
    exact Nat.lt_of_le_of_lt (Nat.mul_le_mul hcopies hle) (by decide)

/-- Whatever commands came before, the size of an expansion is the number of copies times the number
of leaves. It is a word for all bounds if and only if the particle has at most one leaf more than
there are 32-bit words, and the program stops for just those bounds for which it is none. A word
over the limit is reported, and what is spelled out has no more leaves than the limit allows, or
one. -/
theorem expansion_within_limit (h : d.Reached ids) (hnode : node ∈ ids) :
    ∃ before, d.build node = .ok before ∧
      (∀ o : Occurrence, d.expansionSize node o = o.copies * before.tree.leafCount) ∧
      ((∀ o : Occurrence, o.isConsistent = true → d.expansionSize node o < UInt64.size) ↔
        before.tree.leafCount ≤ 2 ^ 32 + 1) ∧
      (∀ o : Occurrence, o.isConsistent = true →
        (d.repeated node o = .error .overflow ↔ UInt64.size ≤ d.expansionSize node o) ∧
        (d.expansionSize node o < UInt64.size → d.limits.copies < d.expansionSize node o →
          d.repeated node o =
            .error (.reported (.overLimit .copies (d.expansionSize node o) d.limits.copies)))) ∧
      ∀ o i d', d.repeated node o = .ok (i, d') →
        ∃ after, d'.build i = .ok after ∧ after.tree.leafCount ≤ max 1 d.limits.copies := by
  obtain ⟨t, rfl, ht⟩ := h.wellFormed.exists_standsIn (h.lt_size hnode)
  obtain ⟨before, hbefore, rfl⟩ := h.wellFormed.exists_build ht
  have hsize : ∀ o : Occurrence, d.expansionSize before.tree.id o =
      o.copies * before.tree.leafCount :=
    fun o => congrArg (o.copies * ·) (Draft.leafCount_eq h.wellFormed ht)
  refine ⟨before, hbefore, hsize, ?_, fun o ho => ⟨?_, Draft.repeated_of_lt ho⟩,
    fun o i d' hok => ?_⟩
  · rw [← Occurrence.forall_mul_lt_iff]
    simp only [hsize]
  · rw [Draft.repeated_eq_error_iff, Draft.checkExpansion_eq_overflow_iff]
    exact and_iff_right ho
  · obtain ⟨ho, -, hle, hout⟩ := Draft.repeated_eq_ok_iff.1 hok
    obtain ⟨r, hid, hextends, hr, -, -, hleaves⟩ :=
      Draft.exists_bounded_expand h.wellFormed ht ho
    rw [hout] at hid hextends hr
    obtain rfl : i = r.id := hid
    obtain ⟨after, hafter, rfl⟩ := (hextends.wellFormed h.wellFormed).exists_build hr
    rw [hsize] at hle
    exact ⟨after, hafter, by omega⟩

theorem expansion_within_limit_doubled :
    (∃ out after, (Draft.doubled 2).repeated 2 ⟨0, some 250⟩ = .ok out ∧
      out.2.build out.1 = .ok after ∧ after.tree.leafCount ≤ 1000) ∧
    (Draft.doubled 2).repeated 2 ⟨0, some 251⟩ =
      .error (.reported (.overLimit .copies 1004 1000)) := by
  have hreached := Draft.reached_doubled 2
  obtain ⟨before, hbefore, -, -, hover, hlimit⟩ :=
    expansion_within_limit hreached (show 2 ∈ (List.range 3).reverse by simp)
  refine ⟨?_, (hover ⟨0, some 251⟩ rfl).2 (by decide) (by decide)⟩
  have hok : (Draft.doubled 2).repeated 2 ⟨0, some 250⟩ =
      .ok ((Draft.doubled 2).expand 2 ⟨0, some 250⟩) :=
    Draft.repeated_eq_ok_iff.2 ⟨rfl, by decide, by decide, rfl⟩
  obtain ⟨after, hafter, hle⟩ := hlimit ⟨0, some 250⟩ _ _ hok
  exact ⟨_, after, hok, hafter, hle⟩

end Product

/-- A draft with a node that has `2 ^ 32` and two leaves. -/
def wideDraft : Draft :=
  ((Draft.doubled 32).group .sequence 32 1).2

theorem reached_wideDraft : wideDraft.Reached (33 :: (List.range 33).reverse) := by
  have hgroup := (Draft.reached_doubled 32).group .sequence (l := 32) (r := 1) (by simp) (by simp)
  rwa [Draft.size_doubled] at hgroup

theorem leafCount_wideDraft : wideDraft.leafCount 33 = 4294967298 := by
  have hgroup := (Draft.standsIn_group .sequence (Draft.standsIn_doubled 32)
    ((Draft.grows_doubled (by decide : 1 ≤ 32)).stands (Draft.standsIn_doubled 1))).2
  rw [Draft.size_doubled, Tree.id_doubled, Tree.id_doubled] at hgroup
  have hcount := Draft.leafCount_eq reached_wideDraft.wellFormed hgroup
  rw [Tree.leafCount, Tree.leafCount_doubled, Tree.leafCount_doubled] at hcount
  exact hcount

/-- As many copies as can be asked for of little more than `2 ^ 32` leaves have more leaves than
there are words. The limit is a thousand, but what the program does is stop. -/
theorem expansion_overflows :
    wideDraft.Reached (33 :: (List.range 33).reverse) ∧
      (⟨4294967295, none⟩ : Occurrence).isConsistent = true ∧
      wideDraft.limits.copies = 1000 ∧
      wideDraft.expansionSize 33 ⟨4294967295, none⟩ = 2 ^ 64 + 4294967294 ∧
      ¬ wideDraft.expansionSize 33 ⟨4294967295, none⟩ < UInt64.size ∧
      wideDraft.repeated 33 ⟨4294967295, none⟩ = .error .overflow := by
  have hlimits : wideDraft.limits = .standard := Draft.limits_doubled 32
  have hsize : wideDraft.expansionSize 33 ⟨4294967295, none⟩ = 2 ^ 64 + 4294967294 := by
    rw [Draft.expansionSize, leafCount_wideDraft]
    rfl
  have hle : UInt64.size ≤ wideDraft.expansionSize 33 ⟨4294967295, none⟩ := by
    rw [hsize]
    decide
  refine ⟨reached_wideDraft, rfl, congrArg Limits.copies hlimits, hsize, Nat.not_lt.2 hle, ?_⟩
  exact Draft.repeated_eq_error_iff.2 (Draft.checkExpansion_eq_overflow_iff.2 ⟨rfl, hle⟩)

end ElementContent
