import ElementContent.Content.Draft
import ElementContent.Proofs.Content.Standing

/-!
# Drafts that are in order

The nodes of a draft are added one after the other, each behind its parts, and every particle that a
leaf names has been declared. So a draft is at all times fit to be built, from any of its nodes, and
what stands in it goes on standing while it grows.

- `Draft.WellFormed`: parts stand before the nodes they belong to, and particles are declared.
- `Draft.Grows`: nodes are added to a draft, and those before stay as they are.
- `Draft.Holds`: trees stand in the draft, on nodes from a number on.
- `Tree.joined`: the tree of a group of any number of operands; `Draft.standsIn_joined` finds it.
- `Draft.WellFormed.exists_build`: a draft can be built from any of its nodes, and the tree that
  stands at the node is that of the declaration.
-/

namespace ElementContent

/-- The trees joined to the one before them by groups of two that lean to the left; the groups are
numbered upwards. -/
def Tree.joined (kind : GroupKind) : Nat → Tree → List Tree → Tree
  | _, t, [] => t
  | i, t, u :: us => joined kind (i + 1) (.group i kind t u) us

namespace Draft

/-- The parts of a node stand before it, and the particles that leaves name are declared. -/
structure WellFormed (d : Draft) : Prop where
  earlier : ∀ (i : Nat) (n : Node Nat), d.nodes[i]? = some n → ∀ c ∈ n.children, c < i
  declared : ∀ (i : Nat) (term : Term) (p : Nat),
    d.nodes[i]? = some (.leaf term (some p)) → p < d.labels.size

/-- The node may come next: its parts are there and its particle is declared. -/
structure Admits (d : Draft) (n : Node Nat) : Prop where
  parts : ∀ c ∈ n.children, c < d.nodes.size
  declared : ∀ (term : Term) (p : Nat), n = .leaf term (some p) → p < d.labels.size

/-- Nodes and labels are added, and what was there stays. -/
structure Grows (d d' : Draft) : Prop where
  node : ∀ (i : Nat) (n : Node Nat), d.nodes[i]? = some n → d'.nodes[i]? = some n
  labels : d.labels.size ≤ d'.labels.size
  wellFormed : d.WellFormed → d'.WellFormed

variable {d d' d'' : Draft} {n : Node Nat} {t : Tree} {ts us : List Tree} {b i : Nat}

theorem wellFormed_empty (limits : Limits) : (empty limits).WellFormed :=
  ⟨fun i n h => by simp [empty] at h, fun i term p h => by simp [empty] at h⟩

theorem Grows.refl (d : Draft) : d.Grows d :=
  ⟨fun _ _ h => h, Nat.le_refl _, id⟩

theorem Grows.trans (h : d.Grows d') (h' : d'.Grows d'') : d.Grows d'' where
  node i n hn := h'.node i n (h.node i n hn)
  labels := Nat.le_trans h.labels h'.labels
  wellFormed hd := h'.wellFormed (h.wellFormed hd)

theorem Grows.size_le (h : d.Grows d') : d.nodes.size ≤ d'.nodes.size := by
  refine Nat.le_of_not_lt fun hlt => ?_
  have hn := h.node _ _ (Array.getElem?_eq_getElem hlt)
  exact Nat.lt_irrefl _ (Array.getElem?_eq_some_iff.1 hn).1

theorem Grows.stands (h : d.Grows d') (ht : t.StandsIn d.nodes) : t.StandsIn d'.nodes :=
  ht.mono h.node

/-! ## One node more -/

@[simp] theorem fst_add (d : Draft) (n : Node Nat) : (d.add n).1 = d.nodes.size :=
  rfl

@[simp] theorem size_add (d : Draft) (n : Node Nat) :
    (d.add n).2.nodes.size = d.nodes.size + 1 :=
  Array.size_push ..

theorem getElem?_add (d : Draft) (n : Node Nat) (i : Nat) :
    (d.add n).2.nodes[i]? = if i = d.nodes.size then some n else d.nodes[i]? :=
  Array.getElem?_push

theorem grows_add (h : d.Admits n) : d.Grows (d.add n).2 where
  node i m hm := by
    have hlt := (Array.getElem?_eq_some_iff.1 hm).1
    rwa [getElem?_add, if_neg (Nat.ne_of_lt hlt)]
  labels := Nat.le_refl _
  wellFormed hd := by
    refine ⟨fun i m hm => ?_, fun i term p hm => ?_⟩
    · rw [getElem?_add] at hm
      split at hm
      · next hi =>
        obtain rfl := Option.some.inj hm
        exact hi ▸ h.parts
      · exact hd.earlier i m hm
    · rw [getElem?_add] at hm
      split at hm
      · exact h.declared term p (Option.some.inj hm)
      · exact hd.declared i term p hm

/-! ## Trees on new nodes -/

/-- The trees stand in the draft, on nodes from `b` on. -/
structure Holds (d : Draft) (b : Nat) (ts : List Tree) : Prop where
  stands : ∀ t ∈ ts, t.StandsIn d.nodes
  above : ∀ i ∈ ts.flatMap Tree.ids, b ≤ i

theorem holds_nil (d : Draft) (b : Nat) : d.Holds b [] :=
  ⟨by simp, by simp⟩

theorem Holds.append (h : d.Holds b ts) (h' : d.Holds b us) : d.Holds b (ts ++ us) := by
  refine ⟨fun t ht => (List.mem_append.1 ht).elim (h.stands t) (h'.stands t), fun i hi => ?_⟩
  rw [List.flatMap_append] at hi
  exact (List.mem_append.1 hi).elim (h.above i) (h'.above i)

theorem Holds.lt_size (h : d.Holds b ts) : ∀ i ∈ ts.flatMap Tree.ids, i < d.nodes.size := by
  intro i hi
  obtain ⟨t, ht, hi⟩ := List.mem_flatMap.1 hi
  exact (h.stands t ht).lt_size hi

theorem Holds.le_size (h : d.Holds b (t :: ts)) : b ≤ d.nodes.size := by
  have htop : t.id ∈ (t :: ts).flatMap Tree.ids :=
    List.mem_flatMap.2 ⟨t, List.mem_cons_self, t.id_mem_ids⟩
  exact Nat.le_trans (h.above t.id htop) (Nat.le_of_lt (h.lt_size t.id htop))

theorem Holds.of_grows (h : d.Holds b ts) (hd : d.Grows d') : d'.Holds b ts :=
  ⟨fun t ht => hd.stands (h.stands t ht), h.above⟩

theorem Holds.of_le {b' : Nat} (h : d.Holds b ts) (hb : b' ≤ b) : d.Holds b' ts :=
  ⟨h.stands, fun i hi => Nat.le_trans hb (h.above i hi)⟩

/-- New nodes are none of those that were there. -/
theorem Holds.disjoint (h : d.Holds b ts) (h' : d'.Holds d.nodes.size us) :
    (ts.flatMap Tree.ids).Disjoint (us.flatMap Tree.ids) :=
  fun i hi hi' => Nat.lt_irrefl i (Nat.lt_of_lt_of_le (h.lt_size i hi) (h'.above i hi'))

theorem grows_leaf (d : Draft) (term : Term) : d.Grows (d.leaf term).2 :=
  grows_add ⟨by simp [Node.children], by simp⟩

theorem standsIn_leaf (d : Draft) (term : Term) :
    (Tree.leaf d.nodes.size term none).StandsIn (d.leaf term).2.nodes := by
  rw [Tree.standsIn_leaf, leaf, getElem?_add, if_pos rfl]

theorem grows_particle (d : Draft) (label : String) (term : Term) :
    d.Grows (d.particle label term).2 := by
  have hlabel : d.Grows { d with labels := d.labels.push label } := by
    refine ⟨fun _ _ h => h, by simp, fun hd => ⟨hd.earlier, fun i term p hn => ?_⟩⟩
    exact Nat.lt_of_lt_of_le (hd.declared i term p hn) (by simp)
  refine hlabel.trans (grows_add ⟨by simp [Node.children], ?_⟩)
  rintro _ _ ⟨⟩
  simp

theorem grows_group (kind : GroupKind) {l r : Nat} (hl : l < d.nodes.size)
    (hr : r < d.nodes.size) : d.Grows (d.group kind l r).2 :=
  grows_add ⟨by simp [Node.children, hl, hr], by simp⟩

theorem grows_quantify (q : Quantifier) {body : Nat} (hb : body < d.nodes.size) :
    d.Grows (d.quantify q body).2 :=
  grows_add ⟨by simp [Node.children, hb], by simp⟩

theorem standsIn_group (kind : GroupKind) {l r : Tree} (hl : l.StandsIn d.nodes)
    (hr : r.StandsIn d.nodes) : d.Grows (d.group kind l.id r.id).2 ∧
      (Tree.group d.nodes.size kind l r).StandsIn (d.group kind l.id r.id).2.nodes := by
  have hgrows := grows_group kind (hl.lt_size l.id_mem_ids) (hr.lt_size r.id_mem_ids)
  refine ⟨hgrows, Tree.standsIn_group.2 ⟨?_, hgrows.stands hl, hgrows.stands hr⟩⟩
  rw [group, getElem?_add, if_pos rfl]

theorem standsIn_quantify (q : Quantifier) {body : Tree} (hb : body.StandsIn d.nodes) :
    d.Grows (d.quantify q body.id).2 ∧
      (Tree.quantified d.nodes.size q body).StandsIn (d.quantify q body.id).2.nodes := by
  have hgrows := grows_quantify q (hb.lt_size body.id_mem_ids)
  refine ⟨hgrows, Tree.standsIn_quantified.2 ⟨?_, hgrows.stands hb⟩⟩
  rw [quantify, getElem?_add, if_pos rfl]

/-! ## Groups of any number of operands -/

/-- The group of the operands stands where joining them leads. -/
theorem standsIn_joined (kind : GroupKind) (h : ∀ u ∈ t :: ts, u.StandsIn d.nodes) :
    d.Grows (groupFrom kind t.id (ts.map Tree.id) d).2 ∧
      (groupFrom kind t.id (ts.map Tree.id) d).1 = (Tree.joined kind d.nodes.size t ts).id ∧
      (Tree.joined kind d.nodes.size t ts).StandsIn
        (groupFrom kind t.id (ts.map Tree.id) d).2.nodes := by
  induction ts generalizing d t with
  | nil => exact ⟨.refl d, rfl, h t List.mem_cons_self⟩
  | cons u us ih =>
    obtain ⟨ht, h⟩ := List.forall_mem_cons.1 h
    obtain ⟨hu, hus⟩ := List.forall_mem_cons.1 h
    obtain ⟨hgrows, hgroup⟩ := standsIn_group kind ht hu
    have hstands : ∀ v ∈ Tree.group d.nodes.size kind t u :: us,
        v.StandsIn (d.group kind t.id u.id).2.nodes :=
      List.forall_mem_cons.2 ⟨hgroup, fun v hv => hgrows.stands (hus v hv)⟩
    obtain ⟨hgrows', hid, hjoined⟩ := ih hstands
    rw [group, size_add] at hid hjoined
    exact ⟨hgrows.trans hgrows', hid, hjoined⟩

/-! ## Building -/

theorem WellFormed.firstFault_eq_none (h : d.WellFormed) :
    Declaration.firstFault d.nodes d.labels.size = none := by
  refine List.findSome?_eq_none_iff.2 ?_
  rintro ⟨n, i⟩ hmem
  rw [List.mk_mem_zipIdx_iff_getElem?, Array.getElem?_toList] at hmem
  have hparts : n.children.find? (fun c => decide (i ≤ c)) = none := by
    refine List.find?_eq_none.2 fun c hc => ?_
    have := h.earlier i n hmem c hc
    simpa using this
  simp only [Declaration.nodeFault, hparts]
  split
  · next term p =>
    have := h.declared i term p hmem
    rw [if_neg]
    omega
  · rfl

/-- A draft in order can be built from any of its nodes. -/
theorem WellFormed.exists_build (h : d.WellFormed) (ht : t.StandsIn d.nodes) :
    ∃ decl, d.build t.id = .ok decl ∧ decl.tree = t := by
  have hlt := ht.lt_size t.id_mem_ids
  have hfault := h.firstFault_eq_none
  have hbuild : ∃ decl, d.build t.id = .ok decl ∧ decl.nodes = d.nodes ∧ decl.root = t.id := by
    unfold build Declaration.ofParts
    rw [dif_pos hlt]
    split
    · next fault hf =>
      rw [hfault] at hf
      cases hf
    · exact ⟨_, rfl, rfl, rfl⟩
  obtain ⟨decl, hdecl, hnodes, hroot⟩ := hbuild
  refine ⟨decl, hdecl, Tree.standsIn_unique (hnodes ▸ decl.standsIn_tree) ht ?_⟩
  rw [decl.id_tree, hroot]

/-- What is built from the topmost node of a tree has that tree. -/
theorem WellFormed.tree_of_build (h : d.WellFormed) (ht : t.StandsIn d.nodes) {decl : Declaration}
    (hdecl : d.build t.id = .ok decl) : decl.tree = t := by
  obtain ⟨decl', hdecl', htree⟩ := h.exists_build ht
  obtain rfl := Except.ok.inj (hdecl'.symm.trans hdecl)
  exact htree

/-- What is built has the nodes of the draft. -/
theorem nodes_of_build {root : Nat} {decl : Declaration}
    (h : d.build root = .ok decl) : decl.nodes = d.nodes := by
  unfold build Declaration.ofParts at h
  split at h
  · split at h
    · cases h
    · obtain rfl := Except.ok.inj h
      rfl
  · cases h

theorem WellFormed.exists_standsIn (h : d.WellFormed) (hi : i < d.nodes.size) :
    ∃ t : Tree, t.id = i ∧ t.StandsIn d.nodes :=
  Tree.exists_standsIn h.earlier i hi

end Draft

end ElementContent
