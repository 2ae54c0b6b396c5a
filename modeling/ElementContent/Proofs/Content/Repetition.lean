import ElementContent.Proofs.Content.Spelling

/-!
# Spelled out bounds

Occurrence bounds are spelled out with copies that must stand, with a last copy that is repeated,
or with nested copies that may be missing. Whatever the arm, the new node allows what the bounds say
and has as many leaves as there are copies.

- `Draft.SpellsOut`: a draft holds trees that spell out another one.
- `Draft.Gives`: an operation gives the topmost node of such a tree.
- `Draft.exists_copies`, `Draft.exists_optionals`: copies that must stand, and copies that may.
- `Draft.repeats_spellOut`: bounds that need copies, arm by arm.
- `Draft.repeats_expand`, `Draft.exists_expand`: bounds that let a particle stand, and all bounds.
- `Draft.exists_bounded_expand`: how deep the new node is, and how many leaves it has.
-/

namespace ElementContent

/-- Whether the bounds let a particle stand `n` times. -/
def Occurrence.allows (o : Occurrence) (n : Nat) : Prop :=
  o.min.toNat ≤ n ∧ ∀ max, o.max = some max → n ≤ max.toNat

namespace Occurrence

variable (o : Occurrence)

theorem allows_iff {n : Nat} : o.allows n ↔
    o.min.toNat ≤ n ∧ ∀ max, o.max.map UInt32.toNat = some max → n ≤ max := by
  simp only [allows, Option.map_eq_some_iff, forall_exists_index, and_imp, forall_apply_eq_imp_iff₂]

theorem copies_eq : o.copies = (o.max.map UInt32.toNat).getD (Nat.max o.min.toNat 1) := by
  unfold copies
  cases o.max <;> rfl

theorem isConsistent_iff : o.isConsistent = true ↔
    ∀ max, o.max.map UInt32.toNat = some max → o.min.toNat ≤ max := by
  unfold isConsistent
  cases o.max with
  | none => simp
  | some max => simp [UInt32.le_iff_toNat_le]

theorem map_max_ne_zero (h : o.max ≠ some 0) : o.max.map UInt32.toNat ≠ some 0 := by
  intro hmax
  obtain ⟨max, hmax, hzero⟩ := Option.map_eq_some_iff.1 hmax
  have : max = 0 := UInt32.toNat_inj.1 hzero
  exact h (this ▸ hmax)

end Occurrence

namespace Draft

/-- The draft holds trees, on nodes from `b` on, that spell out another one. -/
structure SpellsOut (d : Draft) (b : Nat) (x : Tree) (p : Nat → Prop) (k : Nat) (ts : List Tree) :
    Prop where
  holds : d.Holds b ts
  spelled : x.SpelledBy p k ts

/-- The operation adds to the draft and gives the topmost node of a tree that spells out `x`. -/
def Gives (d : Draft) (b : Nat) (x : Tree) (p : Nat → Prop) (k : Nat) (out : Nat × Draft) : Prop :=
  ∃ t : Tree, out.1 = t.id ∧ d.Grows out.2 ∧ out.2.SpellsOut b x p k [t]

variable {d d' : Draft} {x t : Tree} {ts us : List Tree} {s : Subtree} {p q : Nat → Prop}
  {b k l : Nat} {out : Nat × Draft}

namespace SpellsOut

theorem congr (h : d.SpellsOut b x p k ts) (hp : ∀ n, p n ↔ q n) (hk : k = l) :
    d.SpellsOut b x q l ts :=
  ⟨h.holds, h.spelled.congr hp hk⟩

theorem nil (d : Draft) (b : Nat) (x : Tree) : d.SpellsOut b x (· = 0) 0 [] :=
  ⟨holds_nil d b, .nil x⟩

theorem self (hx : x.StandsIn d.nodes) : d.SpellsOut 0 x (· = 1) 1 [x] :=
  ⟨⟨List.forall_mem_singleton.2 hx, fun _ _ => Nat.zero_le _⟩, .self x⟩

/-- What is added may come after what was there. -/
theorem append (h : d.SpellsOut b x p k ts) (hd : d.Grows d')
    (h' : d'.SpellsOut d.nodes.size x q l us) (hb : b ≤ d.nodes.size) :
    d'.SpellsOut b x (Language.IsSum p q) (k + l) (ts ++ us) :=
  ⟨(h.holds.of_grows hd).append (h'.holds.of_le hb),
    h.spelled.append h'.spelled (h.holds.disjoint h'.holds)⟩

/-- What is added may come before what was there. -/
theorem prepend (h : d.SpellsOut b x p k ts) (hd : d.Grows d')
    (h' : d'.SpellsOut d.nodes.size x q l us) (hb : b ≤ d.nodes.size) :
    d'.SpellsOut b x (Language.IsSum q p) (l + k) (us ++ ts) :=
  ⟨(h'.holds.of_le hb).append (h.holds.of_grows hd),
    h'.spelled.append h.spelled (List.disjoint_symm (h.holds.disjoint h'.holds))⟩

end SpellsOut

theorem Gives.congr (h : d.Gives b x p k out) (hp : ∀ n, p n ↔ q n) (hk : k = l) :
    d.Gives b x q l out := by
  obtain ⟨t, hid, hgrows, hspells⟩ := h
  exact ⟨t, hid, hgrows, hspells.congr hp hk⟩

theorem Gives.after (h : d'.Gives b x p k out) (hd : d.Grows d') : d.Gives b x p k out := by
  obtain ⟨t, hid, hgrows, hspells⟩ := h
  exact ⟨t, hid, hd.trans hgrows, hspells⟩

/-! ## Joining and repeating -/

theorem holds_groupFrom (h : d.Holds b (t :: ts)) :
    (groupFrom .sequence t.id (ts.map Tree.id) d).1 =
        (Tree.joined .sequence d.nodes.size t ts).id ∧
      d.Grows (groupFrom .sequence t.id (ts.map Tree.id) d).2 ∧
      (groupFrom .sequence t.id (ts.map Tree.id) d).2.Holds b
        [Tree.joined .sequence d.nodes.size t ts] := by
  obtain ⟨hgrows, hid, hstands⟩ := standsIn_joined .sequence h.stands
  refine ⟨hid, hgrows, List.forall_mem_singleton.2 hstands, fun i hi => ?_⟩
  rw [List.flatMap_singleton, (Tree.ids_joined ..).mem_iff] at hi
  rcases List.mem_append.1 hi with hi | hi
  · exact Nat.le_trans h.le_size (List.mem_range'_1.1 hi).1
  · exact h.above i hi

theorem holds_quantify (h : d.Holds b [t]) (r : Quantifier) : d.Grows (d.quantify r t.id).2 ∧
    (d.quantify r t.id).2.Holds b [.quantified d.nodes.size r t] := by
  obtain ⟨hgrows, hstands⟩ := standsIn_quantify r (h.stands t (List.mem_singleton_self t))
  refine ⟨hgrows, List.forall_mem_singleton.2 hstands, fun i hi => ?_⟩
  rw [List.flatMap_singleton] at hi
  rcases List.mem_cons.1 hi with rfl | hi
  · exact h.le_size
  · exact h.above i (by simpa using hi)

theorem gives_groupFrom (h : d.SpellsOut b x p k (t :: ts)) :
    d.Gives b x p k (groupFrom .sequence t.id (ts.map Tree.id) d) := by
  obtain ⟨hid, hgrows, hholds⟩ := holds_groupFrom h.holds
  exact ⟨_, hid, hgrows, hholds, h.spelled.join h.holds.lt_size⟩

/-- A group that starts with a copy may be missing. -/
theorem gives_optional (h : d.SpellsOut b x p k (t :: ts)) (ht : t.deepest = x.deepest) :
    let body := groupFrom .sequence t.id (ts.map Tree.id) d
    d.Gives b x (fun n => n = 0 ∨ p n) k (body.2.quantify .optional body.1) := by
  intro body
  obtain ⟨hid, hgrows, hbody⟩ := holds_groupFrom h.holds
  obtain ⟨hgrows', hholds⟩ := holds_quantify hbody .optional
  rw [← hid] at hgrows' hholds
  exact ⟨_, rfl, hgrows.trans hgrows', hholds,
    h.spelled.optional ht h.holds.lt_size (by simpa using hbody.lt_size)⟩

theorem gives_quantify (h : d.SpellsOut b x (· = 1) 1 [t]) (ht : t.deepest = x.deepest)
    (r : Quantifier) : d.Gives b x r.allows 1 (d.quantify r t.id) := by
  obtain ⟨hgrows, hholds⟩ := holds_quantify h.holds r
  exact ⟨_, rfl, hgrows, hholds, h.spelled.quantified ht r (by simpa using h.holds.lt_size)⟩

/-! ## Copies -/

theorem optionals_succ (s : Subtree) (n : Nat) (inner : Option Nat) (d : Draft) :
    optionals s (n + 1) inner d =
      let body := groupFrom .sequence (d.copy s).1 inner.toList (d.copy s).2
      let outer := body.2.quantify .optional body.1
      optionals s n (some outer.1) outer.2 := by
  cases inner <;> rfl

section Copies

variable (hd : d.WellFormed) (hx : x.StandsIn d.nodes) (hs : s.Lists x)

include hd hx hs

/-- A copy spells out the tree once, and it is as deep as the tree wherever it stands. -/
theorem spellsOut_copy : ∃ u : Tree, (d.copy s).1 = u.id ∧ d.Grows (d.copy s).2 ∧
    (d.copy s).2.SpellsOut d.nodes.size x (· = 1) 1 [u] ∧ u.deepest = x.deepest := by
  obtain ⟨u, hcopy, hid, hgrows, hholds⟩ := exists_copy hd hx hs
  exact ⟨u, hid, hgrows, ⟨hholds, .of_isCopyOf hcopy⟩, hcopy.deepest_eq⟩

/-- Copies that must stand. -/
theorem exists_copies (n : Nat) (ids : Array Nat) : ∃ us : List Tree,
    (copies s n ids d).1.toList = ids.toList ++ us.map Tree.id ∧ d.Grows (copies s n ids d).2 ∧
      (copies s n ids d).2.SpellsOut d.nodes.size x (· = n) n us := by
  induction n generalizing d ids with
  | zero => exact ⟨[], by simp [copies], .refl d, .nil d _ x⟩
  | succ n ih =>
    obtain ⟨u, hid, hgrows, hu, -⟩ := spellsOut_copy hd hx hs
    obtain ⟨us, hids, hgrows', hus⟩ :=
      ih (hgrows.wellFormed hd) (hgrows.stands hx) (ids.push (d.copy s).1)
    refine ⟨[u] ++ us, ?_, hgrows.trans hgrows', ?_⟩
    · show (copies s n (ids.push (d.copy s).1) (d.copy s).2).1.toList = _
      rw [hids, hid]
      simp
    · exact (hu.append hgrows' hus hgrows.size_le).congr
        (fun m => Language.isSum_eq_eq.trans (by rw [Nat.add_comm])) (Nat.add_comm 1 n)

/-- Nested copies that may be missing. -/
theorem exists_optionals (n m : Nat) (inner : Option Tree) (hb : b ≤ d.nodes.size)
    (hinner : d.SpellsOut b x (· ≤ m) m inner.toList) : ∃ outer : Option Tree,
      (optionals s n (inner.map Tree.id) d).1 = outer.map Tree.id ∧
        d.Grows (optionals s n (inner.map Tree.id) d).2 ∧
        (optionals s n (inner.map Tree.id) d).2.SpellsOut b x (· ≤ m + n) (m + n) outer.toList := by
  induction n generalizing d m inner with
  | zero => exact ⟨inner, rfl, .refl d, hinner⟩
  | succ n ih =>
    -- a copy is put before what is inside, and both may be missing
    obtain ⟨u, hidu, hgrowsu, hu, hdeepest⟩ := spellsOut_copy hd hx hs
    have hlist : (d.copy s).2.SpellsOut b x _ _ (u :: inner.toList) :=
      hinner.prepend hgrowsu hu hb
    obtain ⟨w, hidw, hgrowsw, hw⟩ := gives_optional hlist hdeepest
    have hgrows := hgrowsu.trans hgrowsw
    have hw := hw.congr (q := (· ≤ m + 1))
      (fun n => by rw [Language.isSum_eq_le]; omega) (Nat.add_comm 1 m)
    obtain ⟨outer, hid, hgrows', houter⟩ := ih (hgrows.wellFormed hd) (hgrows.stands hx) (m + 1)
      (some w) (Nat.le_trans hb hgrows.size_le) hw
    have hstep : optionals s (n + 1) (inner.map Tree.id) d =
        let body := groupFrom .sequence u.id (inner.toList.map Tree.id) (d.copy s).2
        optionals s n ((some w).map Tree.id) (body.2.quantify .optional body.1).2 := by
      rw [optionals_succ, Option.toList_map, hidu]
      dsimp only
      rw [hidw, Option.map_some]
    rw [hstep]
    refine ⟨outer, hid, hgrows.trans hgrows', ?_⟩
    rwa [Nat.add_assoc, Nat.add_comm 1 n] at houter

end Copies

/-! ## Bounds that need copies -/

section SpellOut

variable {min max : Nat} (hd : (d.tag (d.subtree x.id)).WellFormed)
  (hx : x.StandsIn (d.tag (d.subtree x.id)).nodes) (hs : (d.subtree x.id).Lists x)

include hd hx hs

/-- The last copy that must stand is repeated. -/
theorem gives_spellOut_unbounded (hmin : 2 ≤ min) :
    (d.tag (d.subtree x.id)).Gives 0 x (min ≤ ·) min (d.spellOut x.id min none) := by
  obtain ⟨us, hids, hgrows, hus⟩ := exists_copies hd hx hs (min - 2) #[x.id]
  obtain ⟨u, hidu, hgrowsu, hu, hdeepest⟩ :=
    spellsOut_copy (hgrows.wellFormed hd) (hgrows.stands hx) hs
  obtain ⟨v, hidv, hgrowsv, hv⟩ := gives_quantify hu hdeepest .plus
  have hgrowsv := hgrowsu.trans hgrowsv
  -- the operands are the particle, its copies and the loop
  have hlist := ((SpellsOut.self hx).append hgrows hus (Nat.zero_le _)).append hgrowsv hv
    (Nat.zero_le _)
  have hout : d.spellOut x.id min none = groupFrom .sequence x.id ((us ++ [v]).map Tree.id)
      (((copies (d.subtree x.id) (min - 2) #[x.id] (d.tag (d.subtree x.id))).2.copy
        (d.subtree x.id)).2.quantify .plus u.id).2 := by
    unfold spellOut
    dsimp only
    rw [Array.toList_push, hids, hidu, hidv, List.map_append]
    rfl
  rw [hout]
  refine ((gives_groupFrom hlist).after (hgrows.trans hgrowsv)).congr (fun n => ?_) (by omega)
  refine (Language.IsSum.congr (fun _ => Language.isSum_eq_eq) (fun _ => Iff.rfl) n).trans ?_
  exact Language.isSum_eq_ge.trans (by omega)

/-- The particle heads the copies that may be missing, and may be missing itself. -/
theorem gives_spellOut_zero (hmax : 1 ≤ max) :
    (d.tag (d.subtree x.id)).Gives 0 x (· ≤ max) max (d.spellOut x.id 0 (some max)) := by
  obtain ⟨inner, hid, hgrows, hinner⟩ := exists_optionals hd hx hs (max - 1) 0 none
    (Nat.le_refl _) ((SpellsOut.nil ..).congr (fun n => by omega) rfl)
  have hout : d.spellOut x.id 0 (some max) =
      let body := groupFrom .sequence x.id (inner.toList.map Tree.id)
        (optionals (d.subtree x.id) (max - 1) none (d.tag (d.subtree x.id))).2
      body.2.quantify .optional body.1 := by
    unfold spellOut
    dsimp only
    rw [if_pos rfl, show (optionals _ _ none _).1 = _ from hid]
    cases inner <;> rfl
  rw [hout]
  refine ((gives_optional ((SpellsOut.self hx).append hgrows hinner (Nat.zero_le _)) rfl).after
    hgrows).congr (fun n => ?_) (by omega)
  rw [Language.isSum_eq_le]
  omega

/-- Copies that must stand come before those that may be missing. -/
theorem gives_spellOut_bounded (hmin : 1 ≤ min) (hmax : min ≤ max) :
    (d.tag (d.subtree x.id)).Gives 0 x (fun n => min ≤ n ∧ n ≤ max) max
      (d.spellOut x.id min (some max)) := by
  obtain ⟨us, hids, hgrows, hus⟩ := exists_copies hd hx hs (min - 1) #[x.id]
  obtain ⟨tail, hid, hgrowst, htail⟩ := exists_optionals (hgrows.wellFormed hd)
    (hgrows.stands hx) hs (max - min) 0 none (Nat.le_refl _)
    ((SpellsOut.nil ..).congr (fun n => by omega) rfl)
  have hlist := ((SpellsOut.self hx).append hgrows hus (Nat.zero_le _)).append hgrowst htail
    (Nat.zero_le _)
  have hout : d.spellOut x.id min (some max) =
      groupFrom .sequence x.id ((us ++ tail.toList).map Tree.id)
        (optionals (d.subtree x.id) (max - min) none
          (copies (d.subtree x.id) (min - 1) #[x.id] (d.tag (d.subtree x.id))).2).2 := by
    unfold spellOut
    dsimp only
    rw [if_neg (by omega), show (optionals _ _ none _).1 = _ from hid, hids, Option.toList_map,
      List.map_append]
    rfl
  rw [hout]
  refine ((gives_groupFrom hlist).after (hgrows.trans hgrowst)).congr (fun n => ?_) (by omega)
  refine (Language.IsSum.congr (fun _ => Language.isSum_eq_eq) (fun _ => Iff.rfl) n).trans ?_
  exact Language.isSum_eq_le.trans (by omega)

end SpellOut

/-! ## All bounds -/

/-- The operation adds to the draft, may give particles to leaves that were there, and gives the
topmost node of a tree that spells out another one. -/
def Repeats (d : Draft) (t : Tree) (p : Nat → Prop) (k : Nat) (out : Nat × Draft) : Prop :=
  ∃ r : Tree, out.1 = r.id ∧ d.Extends out.2 ∧ r.StandsIn out.2.nodes ∧ t.SpelledBy p k [r]

theorem Gives.repeats (h : d'.Gives b x p k out) (hd : d.Extends d')
    (hx : x.untagged = t.untagged) : d.Repeats t p k out := by
  obtain ⟨r, hid, hgrows, hholds, hspelled⟩ := h
  exact ⟨r, hid, hd.trans hgrows.extends, hholds.stands r (List.mem_singleton_self r),
    hspelled.of_untagged hx⟩

/-- What may not occur at all becomes a leaf for nothing. -/
theorem expand_of_max_zero {o : Occurrence} (hmax : o.max = some 0) (node : Nat) :
    d.expand node o = d.leaf .empty := by
  unfold expand
  rw [hmax]
  rfl

section Expand

variable (hd : d.WellFormed) (ht : t.StandsIn d.nodes)

include hd ht

theorem repeats_spellOut {min : Nat} {max : Option Nat} (hnone : max = none → 2 ≤ min)
    (hsome : ∀ m, max = some m → 1 ≤ m ∧ min ≤ m) :
    d.Repeats t (fun n => min ≤ n ∧ ∀ m, max = some m → n ≤ m) (max.getD min)
      (d.spellOut t.id min max) := by
  have htag := d.extends_tag (d.subtree t.id)
  obtain ⟨x, hx, hu⟩ := htag.exists_standsIn ht
  -- the subtree was listed before the leaves were given particles, and the ids are the same
  have hs := (hd.lists_subtree ht).of_untagged hu
  have hd := htag.wellFormed hd
  rw [← Tree.id_eq_of_untagged hu] at htag hd hx hs ⊢
  cases max with
  | none =>
    refine ((gives_spellOut_unbounded hd hx hs (hnone rfl)).congr (fun n => ?_) rfl).repeats htag hu
    simp
  | some max =>
    obtain ⟨hpos, hle⟩ := hsome max rfl
    rcases Nat.eq_zero_or_pos min with rfl | hmin
    · refine ((gives_spellOut_zero hd hx hs hpos).congr (fun n => ?_) rfl).repeats htag hu
      simp
    · refine ((gives_spellOut_bounded hd hx hs hmin hle).congr (fun n => ?_) rfl).repeats htag hu
      simp

/-- Bounds that let a particle stand at all. -/
theorem repeats_expand {o : Occurrence} (ho : o.isConsistent = true) (hmax : o.max ≠ some 0) :
    d.Repeats t o.allows o.copies (d.expand t.id o) := by
  have hle := o.isConsistent_iff.1 ho
  have hpos := o.map_max_ne_zero hmax
  rw [o.copies_eq, show o.allows = _ from funext fun n => propext o.allows_iff]
  unfold expand
  generalize o.min.toNat = min at *
  generalize o.max.map UInt32.toNat = max at *
  have hself := SpellsOut.self ht
  have hquantify := fun r => gives_quantify hself rfl r
  split
  · exact absurd rfl hpos
  · have hgives : d.Gives 0 t (· = 1) 1 (t.id, d) := ⟨t, rfl, .refl d, hself⟩
    exact (hgives.congr (fun n => by simp; omega) rfl).repeats (.refl d) rfl
  · refine ((hquantify .optional).congr (fun n => ?_) rfl).repeats (.refl d) rfl
    simp [Quantifier.allows]
  · refine ((hquantify .star).congr (fun n => ?_) rfl).repeats (.refl d) rfl
    simp [Quantifier.allows]
  · refine ((hquantify .plus).congr (fun n => ?_) rfl).repeats (.refl d) rfl
    simp [Quantifier.allows]
  · next hstar hplus =>
    -- what is left needs copies: two at least must stand, or more than one may
    have hnone : max = none → 2 ≤ min := by
      intro h
      rcases Nat.lt_or_ge min 2 with hlt | hge
      · rcases (by omega : min = 0 ∨ min = 1) with h0 | h1
        · exact (hstar h0 h).elim
        · exact (hplus h1 h).elim
      · exact hge
    have hsome : ∀ m, max = some m → 1 ≤ m ∧ min ≤ m := fun m hm =>
      ⟨Nat.pos_of_ne_zero fun h0 => hpos (h0 ▸ hm), hle m hm⟩
    have hcopies : max.getD (Nat.max min 1) = max.getD min := by
      cases max with
      | none => exact Nat.max_eq_left (Nat.le_of_succ_le (hnone rfl))
      | some m => rfl
    rw [hcopies]
    exact repeats_spellOut hd ht hnone hsome

/-- The node for any consistent bounds; if no occurrence is allowed it is a leaf for nothing. -/
theorem exists_expand {o : Occurrence} (ho : o.isConsistent = true) :
    ∃ r : Tree, (d.expand t.id o).1 = r.id ∧ d.Extends (d.expand t.id o).2 ∧
      r.StandsIn (d.expand t.id o).2.nodes ∧ r.children = t.children.times o.allows ∧
      (o.max ≠ some 0 → r.leafCount = o.copies * t.leafCount) ∧ (t.ids.Nodup → r.ids.Nodup) := by
  by_cases hmax : o.max = some 0
  · have hmin : o.min.toNat = 0 := Nat.le_zero.1 (o.isConsistent_iff.1 ho 0 (by rw [hmax]; rfl))
    rw [expand_of_max_zero hmax]
    refine ⟨_, rfl, (d.grows_leaf .empty).extends, d.standsIn_leaf .empty, ?_,
      fun h => absurd hmax h, fun _ => List.nodup_singleton _⟩
    have hnone : ∀ n, n = 0 ↔ o.allows n := fun n => by
      simp [o.allows_iff, hmin, hmax]
    rw [← Language.times_congr hnone, Language.times_zero]
    rfl
  · obtain ⟨r, hid, hextends, hr, hspelled⟩ := repeats_expand hd ht ho hmax
    exact ⟨r, hid, hextends, hr, hspelled.children_single, fun _ => hspelled.leafCount_single,
      hspelled.nodup_single⟩

/-- The node for any consistent bounds is no more than two levels deeper, and has no more leaves than
there are in the copies or one. -/
theorem exists_bounded_expand {o : Occurrence} (ho : o.isConsistent = true) :
    ∃ r : Tree, (d.expand t.id o).1 = r.id ∧ d.Extends (d.expand t.id o).2 ∧
      r.StandsIn (d.expand t.id o).2.nodes ∧ (t.ids.Nodup → r.ids.Nodup) ∧
      r.deepest 0 none false ≤ t.deepest 0 none false + 2 ∧
      r.leafCount ≤ max 1 (o.copies * t.leafCount) := by
  by_cases hmax : o.max = some 0
  · rw [expand_of_max_zero hmax]
    exact ⟨_, rfl, (d.grows_leaf .empty).extends, d.standsIn_leaf .empty,
      fun _ => List.nodup_singleton _, Nat.zero_le _, Nat.le_max_left _ _⟩
  · obtain ⟨r, hid, hextends, hr, hspelled⟩ := repeats_expand hd ht ho hmax
    exact ⟨r, hid, hextends, hr, hspelled.nodup_single, hspelled.shallow_single.deepest_le,
      hspelled.leafCount_single ▸ Nat.le_max_right _ _⟩

end Expand

end Draft

end ElementContent
