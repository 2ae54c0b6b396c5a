import ElementContent.Content.Language
import ElementContent.Content.Repetition
import ElementContent.Proofs.Content.Draft

/-!
# Leaves that are given a particle

A leaf that takes a child and belongs to no particle is given one before it is copied. This is the
only change that a node of a draft undergoes, and what the content allows does not depend on it.

- `Tree.relabel`: a tree with other ids and particles allows the same children.
- `Tree.untagged`: the tree without its particles.
- `Node.isLoose`: the leaf may have a particle and has none; `Draft.tagLeaf_cases` says what giving
  it one changes.
- `Draft.Extends`: nodes are added, and leaves among those before may be given a particle.
- `Draft.extends_tag`: giving particles to the leaves of a subtree.
- `Draft.ready_tag`: no leaf is copied before it belongs to a particle.
-/

namespace ElementContent

namespace Node

variable {α β : Type}

/-- The particle of a leaf. -/
def particle? : Node α → Option Nat
  | leaf _ particle => particle
  | _ => none

/-- Whether the node is a leaf that takes a child and belongs to no particle. -/
def isLoose (n : Node α) : Bool :=
  n.takesChild && n.particle?.isNone

@[simp] theorem takesChild_map (n : Node α) (f : α → β) : (n.map f).takesChild = n.takesChild := by
  cases n <;> rfl

@[simp] theorem particle?_map (n : Node α) (f : α → β) : (n.map f).particle? = n.particle? := by
  cases n <;> rfl

@[simp] theorem isLoose_map (n : Node α) (f : α → β) : (n.map f).isLoose = n.isLoose := by
  simp [isLoose]

theorem isLoose_eq_true_iff {n : Node α} :
    n.isLoose = true ↔ n.takesChild = true ∧ n.particle? = none := by
  simp [isLoose]

end Node

/-- The node is the same, or a leaf that takes a child and has been given a particle. -/
inductive Node.Tagged : Node Nat → Node Nat → Prop where
  /-- The node is the same. -/
  | refl (n : Node Nat) : Tagged n n
  /-- The leaf has been given a particle. -/
  | leaf (term : Term) (p : Nat) (h : term.takesChild = true) :
    Tagged (.leaf term none) (.leaf term (some p))

theorem Node.Tagged.trans {n n' n'' : Node Nat} (h : n.Tagged n') (h' : n'.Tagged n'') :
    n.Tagged n'' := by
  cases h with
  | refl => exact h'
  | leaf term p hterm =>
    cases h' with
    | refl => exact .leaf term p hterm

/-- What has a particle or takes no child is given none. -/
theorem Node.Tagged.isLoose_eq_false {n n' : Node Nat} (h : n.Tagged n') (hn : n.isLoose = false) :
    n'.isLoose = false := by
  cases h with
  | refl => exact hn
  | leaf term p hterm => simp [isLoose, particle?]

namespace Tree

/-- The tree with other ids and other particles. -/
def relabel (f : Nat → Nat) (g : Option Nat → Option Nat) : Tree → Tree
  | leaf i term particle => leaf (f i) term (g particle)
  | group i kind l r => group (f i) kind (l.relabel f g) (r.relabel f g)
  | quantified i q body => quantified (f i) q (body.relabel f g)

/-- The tree without its particles. -/
def untagged : Tree → Tree :=
  relabel (fun i => i) fun _ => none

variable {f : Nat → Nat} {g : Option Nat → Option Nat} {t t' : Tree}

@[simp] theorem id_relabel (t : Tree) : (t.relabel f g).id = f t.id := by
  cases t <;> rfl

@[simp] theorem children_relabel (t : Tree) : (t.relabel f g).children = t.children := by
  induction t with
  | leaf => rfl
  | group i kind l r ihl ihr => exact congrArg₂ kind.combine ihl ihr
  | quantified i q body ih => exact congrArg q.iterate ih

@[simp] theorem leafCount_relabel (t : Tree) : (t.relabel f g).leafCount = t.leafCount := by
  induction t with
  | leaf => rfl
  | group i kind l r ihl ihr => exact congrArg₂ (· + ·) ihl ihr
  | quantified i q body ih => exact ih

theorem subtrees_relabel (t : Tree) :
    (t.relabel f g).subtrees = t.subtrees.map (relabel f g) := by
  induction t with
  | leaf => rfl
  | group i kind l r ihl ihr => simp [relabel, subtrees, ihl, ihr]
  | quantified i q body ih => simp [relabel, subtrees, ih]

theorem node_relabel (t : Tree) : (t.relabel f fun p => p).node = t.node.map f := by
  cases t with
  | leaf => rfl
  | group i kind l r => exact congrArg₂ (Node.group kind) l.id_relabel r.id_relabel
  | quantified i q body => exact congrArg (Node.quantified q) body.id_relabel

theorem ids_relabel (t : Tree) : (t.relabel f g).ids = t.ids.map f := by
  rw [ids_eq_map_subtrees, ids_eq_map_subtrees, subtrees_relabel, List.map_map, List.map_map]
  exact List.map_congr_left fun s _ => s.id_relabel

theorem children_eq_of_untagged (h : t'.untagged = t.untagged) : t'.children = t.children := by
  rw [← t'.children_relabel, ← t.children_relabel]
  exact congrArg children h

theorem leafCount_eq_of_untagged (h : t'.untagged = t.untagged) : t'.leafCount = t.leafCount := by
  rw [← t'.leafCount_relabel, ← t.leafCount_relabel]
  exact congrArg leafCount h

theorem ids_eq_of_untagged (h : t'.untagged = t.untagged) : t'.ids = t.ids := by
  have hids : ∀ u : Tree, u.untagged.ids = u.ids := fun u => u.ids_relabel.trans (List.map_id _)
  rw [← hids t', h, hids]

theorem id_eq_of_untagged (h : t'.untagged = t.untagged) : t'.id = t.id := by
  have := congrArg id h
  simpa [untagged] using this

end Tree

namespace Draft

variable {d d' d'' : Draft} {t : Tree}

/-- Nodes and labels are added; what was there stays, but leaves may be given a particle. -/
structure Extends (d d' : Draft) : Prop where
  node : ∀ (i : Nat) (n : Node Nat), d.nodes[i]? = some n →
    ∃ n', d'.nodes[i]? = some n' ∧ n.Tagged n'
  labels : d.labels.size ≤ d'.labels.size
  wellFormed : d.WellFormed → d'.WellFormed

theorem Grows.extends (h : d.Grows d') : d.Extends d' :=
  ⟨fun i n hn => ⟨n, h.node i n hn, .refl n⟩, h.labels, h.wellFormed⟩

theorem Extends.refl (d : Draft) : d.Extends d :=
  (Grows.refl d).extends

theorem Extends.trans (h : d.Extends d') (h' : d'.Extends d'') : d.Extends d'' where
  node i n hn := by
    obtain ⟨n', hn', htag⟩ := h.node i n hn
    obtain ⟨n'', hn'', htag'⟩ := h'.node i n' hn'
    exact ⟨n'', hn'', htag.trans htag'⟩
  labels := Nat.le_trans h.labels h'.labels
  wellFormed hd := h'.wellFormed (h.wellFormed hd)

theorem Extends.size_le (h : d.Extends d') : d.nodes.size ≤ d'.nodes.size := by
  refine Nat.le_of_not_lt fun hlt => ?_
  obtain ⟨n', hn', -⟩ := h.node _ _ (Array.getElem?_eq_getElem hlt)
  exact Nat.lt_irrefl _ (Array.getElem?_eq_some_iff.1 hn').1

/-- What stood in the draft still stands, but for its particles. -/
theorem Extends.exists_standsIn (h : d.Extends d') (ht : t.StandsIn d.nodes) :
    ∃ t' : Tree, t'.StandsIn d'.nodes ∧ t'.untagged = t.untagged := by
  induction t with
  | leaf i term particle =>
    obtain ⟨n', hn', htag⟩ := h.node i _ (Tree.standsIn_leaf.1 ht)
    cases htag with
    | refl => exact ⟨.leaf i term particle, Tree.standsIn_leaf.2 hn', rfl⟩
    | leaf term p => exact ⟨.leaf i term (some p), Tree.standsIn_leaf.2 hn', rfl⟩
  | group i kind l r ihl ihr =>
    obtain ⟨hi, hl, hr⟩ := Tree.standsIn_group.1 ht
    obtain ⟨l', hl', hul⟩ := ihl hl
    obtain ⟨r', hr', hur⟩ := ihr hr
    obtain ⟨n', hn', htag⟩ := h.node i _ hi
    cases htag with
    | refl =>
      rw [← Tree.id_eq_of_untagged hul, ← Tree.id_eq_of_untagged hur] at hn'
      exact ⟨.group i kind l' r', Tree.standsIn_group.2 ⟨hn', hl', hr'⟩,
        congrArg₂ (Tree.group i kind) hul hur⟩
  | quantified i q body ih =>
    obtain ⟨hi, hb⟩ := Tree.standsIn_quantified.1 ht
    obtain ⟨body', hb', hub⟩ := ih hb
    obtain ⟨n', hn', htag⟩ := h.node i _ hi
    cases htag with
    | refl =>
      rw [← Tree.id_eq_of_untagged hub] at hn'
      exact ⟨.quantified i q body', Tree.standsIn_quantified.2 ⟨hn', hb'⟩,
        congrArg (Tree.quantified i q) hub⟩

/-! ## Giving particles -/

/-- Giving a particle changes one node if it is a loose leaf, and nothing otherwise. -/
theorem tagLeaf_cases (d : Draft) (i : Nat) :
    (d.tagLeaf i = d ∧ ∀ n, d.nodes[i]? = some n → n.isLoose = false) ∨
      ∃ term, term.takesChild = true ∧ d.nodes[i]? = some (.leaf term none) ∧
        (d.tagLeaf i).nodes.size = d.nodes.size ∧
        (d.tagLeaf i).labels.size = d.labels.size + 1 ∧
        ∀ j : Nat, (d.tagLeaf i).nodes[j]? =
          if j = i then some (.leaf term (some d.labels.size)) else d.nodes[j]? := by
  unfold tagLeaf
  split
  · next term hi =>
    split
    · next hterm =>
      refine .inr ⟨term, hterm, hi, Array.size_setIfInBounds, Array.size_push .., fun j => ?_⟩
      rw [Array.getElem?_setIfInBounds, if_pos (Array.getElem?_eq_some_iff.1 hi).1]
      exact if_congr eq_comm rfl rfl
    · next hterm =>
      refine .inl ⟨rfl, fun n hn => ?_⟩
      obtain rfl := Option.some.inj (hi.symm.trans hn)
      simp [Node.isLoose, Node.takesChild, hterm]
  · next hother =>
    refine .inl ⟨rfl, fun n hn => Bool.eq_false_iff.2 fun hloose => ?_⟩
    obtain ⟨hchild, hparticle⟩ := Node.isLoose_eq_true_iff.1 hloose
    cases n with
    | leaf term particle =>
      obtain rfl : particle = none := hparticle
      exact hother term hn
    | group => cases hchild
    | quantified => cases hchild

theorem extends_tagLeaf (d : Draft) (i : Nat) : d.Extends (d.tagLeaf i) := by
  rcases d.tagLeaf_cases i with ⟨hsame, -⟩ | ⟨term, hterm, hi, -, hlabels, hnode⟩
  · rw [hsame]
    exact .refl d
  · refine ⟨fun j n hn => ?_, by omega, fun hd => ⟨fun j n hn => ?_, fun j term' p hn => ?_⟩⟩
    · by_cases hij : j = i
      · subst hij
        obtain rfl := Option.some.inj (hi.symm.trans hn)
        exact ⟨_, (hnode j).trans (if_pos rfl), .leaf term _ hterm⟩
      · exact ⟨n, by rw [hnode, if_neg hij, hn], .refl n⟩
    · rw [hnode] at hn
      split at hn
      · obtain rfl := Option.some.inj hn
        simp [Node.children]
      · exact hd.earlier j n hn
    · rw [hnode] at hn
      rw [hlabels]
      split at hn
      · cases hn
        exact Nat.lt_succ_self _
      · exact Nat.lt_succ_of_lt (hd.declared j term' p hn)

theorem extends_foldl_tagLeaf (d : Draft) (members : List Nat) :
    d.Extends (members.foldl tagLeaf d) := by
  induction members generalizing d with
  | nil => exact .refl d
  | cons i is ih => exact (d.extends_tagLeaf i).trans (ih (d.tagLeaf i))

theorem extends_tag (d : Draft) (s : Subtree) : d.Extends (d.tag s) :=
  d.extends_foldl_tagLeaf s.members

/-! ## Nodes that may be copied -/

variable {members : List Nat} {i : Nat} {n : Node Nat} {s : Subtree}

/-- The members are nodes, and those that may have a particle have one. -/
def Ready (d : Draft) (members : List Nat) : Prop :=
  ∀ i ∈ members, ∃ n, d.nodes[i]? = some n ∧ n.isLoose = false

theorem Ready.of_extends (h : d.Ready members) (hd : d.Extends d') : d'.Ready members := by
  intro i hi
  obtain ⟨n, hn, hloose⟩ := h i hi
  obtain ⟨n', hn', htag⟩ := hd.node i n hn
  exact ⟨n', hn', htag.isLoose_eq_false hloose⟩

/-- Giving a particle to a leaf makes it ready. -/
theorem exists_tagLeaf (h : d.nodes[i]? = some n) :
    ∃ n', (d.tagLeaf i).nodes[i]? = some n' ∧ n'.isLoose = false := by
  rcases d.tagLeaf_cases i with ⟨hsame, hloose⟩ | ⟨term, -, -, -, -, hnode⟩
  · exact ⟨n, hsame.symm ▸ h, hloose n h⟩
  · exact ⟨_, (hnode i).trans (if_pos rfl), by simp [Node.isLoose, Node.particle?]⟩

/-- Giving particles to the leaves of a subtree makes its members ready. -/
theorem ready_tag (h : ∀ i ∈ s.members, i < d.nodes.size) : (d.tag s).Ready s.members := by
  unfold tag
  generalize s.members = members at h ⊢
  induction members generalizing d with
  | nil => simp [Ready]
  | cons i members ih =>
    obtain ⟨hi, hmembers⟩ := List.forall_mem_cons.1 h
    refine List.forall_mem_cons.2 ⟨?_, ih fun j hj => ?_⟩
    · -- the leaf is ready at once, and stays so while the others are given particles
      have hready : (d.tagLeaf i).Ready [i] :=
        List.forall_mem_singleton.2 (exists_tagLeaf (Array.getElem?_eq_getElem hi))
      exact hready.of_extends (extends_foldl_tagLeaf _ members) i (List.mem_singleton_self i)
    · exact Nat.lt_of_lt_of_le (hmembers j hj) (d.extends_tagLeaf i).size_le

end Draft

end ElementContent
