import ElementContent.Proofs.Content.Reached

/-!
# Copies by look-up

A subtree may also be copied in one pass that keeps a table of the copies made so far and looks up
the copies of the parts of each node, giving leaves their particles on the way. Such a pass stops
when the table lacks a part. It never does: the nodes come in ascending order, so the parts of a
node have been copied before it, and the outcome is the same as when the particles are given first
and the ranks are known beforehand.

- `Draft.copyByTable`: the pass over one subtree; `Draft.carryOut` is a command with all the passes
  that it takes, and with the draft that is left behind if it fails.
- `Draft.exists_table`: what the table holds after any number of nodes.
- `Draft.copyByTable_eq`: the pass ends, with the copy.
- `Draft.carryOut_eq`: so does every command, with the outcome that it has without a table.
-/

namespace ElementContent

/-- The node with the entries of a table for its parts; none if one is missing. -/
def Node.lookUp (table : Std.HashMap Nat Nat) : Node Nat → Option (Node Nat)
  | leaf term particle => some (.leaf term particle)
  | group kind left right => do
    let left ← table[left]?
    let right ← table[right]?
    return .group kind left right
  | quantified quantifier body => do
    let body ← table[body]?
    return .quantified quantifier body

theorem Node.lookUp_eq_some {table : Std.HashMap Nat Nat} {n : Node Nat} {f : Nat → Nat}
    (h : ∀ c ∈ n.children, table[c]? = some (f c)) : n.lookUp table = some (n.map f) := by
  cases n with
  | leaf => rfl
  | group kind left right =>
    rw [lookUp, h left (by simp [children]), h right (by simp [children])]
    rfl
  | quantified quantifier body =>
    rw [lookUp, h body (by simp [children])]
    rfl

/-- What is looked up are the parts alone. -/
theorem Node.exists_eq_map_of_lookUp {table : Std.HashMap Nat Nat} {n m : Node Nat}
    (h : n.lookUp table = some m) : ∃ f : Nat → Nat, m = n.map f := by
  refine ⟨fun c => table.getD c 0, ?_⟩
  have hentry : ∀ {c j : Nat}, table[c]? = some j → j = table.getD c 0 := by
    intro c j hj
    rw [Std.HashMap.getD_eq_getD_getElem?, hj, Option.getD_some]
  cases n with
  | leaf => exact (Option.some.inj h).symm
  | group kind left right =>
    obtain ⟨l, hl, h⟩ := Option.bind_eq_some_iff.1 h
    obtain ⟨r, hr, h⟩ := Option.bind_eq_some_iff.1 h
    rw [← Option.some.inj h, hentry hl, hentry hr]
    rfl
  | quantified quantifier body =>
    obtain ⟨b, hb, h⟩ := Option.bind_eq_some_iff.1 h
    rw [← Option.some.inj h, hentry hb]
    rfl

namespace Draft

/-- Copies one node with the copies that the table has for its parts, and enters it. A leaf that
takes a child and belongs to no particle is given one first. -/
def copyNext (state : Std.HashMap Nat Nat × Draft) (i : Nat) :
    Option (Std.HashMap Nat Nat × Draft) := do
  let d := state.2.tagLeaf i
  let n ← d.nodes[i]?
  let copied ← n.lookUp state.1
  let (id, d) := d.add copied
  return (state.1.insert i id, d)

/-- Copies the nodes below a node, in ascending order. -/
def copyByTable (d : Draft) (node : Nat) : Option (Nat × Draft) := do
  let (table, d) ← (d.subtree node).members.foldlM copyNext (∅, d)
  let id ← table[node]?
  return (id, d)

/-- Adds `n` copies, one after the other, to those added before. -/
def copiesByTable (node : Nat) : Nat → Array Nat → Draft → Option (Array Nat × Draft)
  | 0, ids, d => some (ids, d)
  | n + 1, ids, d => do
    let (id, d) ← d.copyByTable node
    copiesByTable node n (ids.push id) d

/-- Adds `n` nested optional copies around `inner`. -/
def optionalsByTable (node : Nat) : Nat → Option Nat → Draft → Option (Option Nat × Draft)
  | 0, inner, d => some (inner, d)
  | n + 1, inner, d => do
    let (id, d) ← d.copyByTable node
    let (body, d) := groupFrom .sequence id inner.toList d
    let (outer, d) := d.quantify .optional body
    optionalsByTable node n (some outer) d

/-- Spells out bounds that need copies. Without a greatest number the last copy is taken back and
repeated. -/
def spellOutByTable (d : Draft) (node min : Nat) (max : Option Nat) : Option (Nat × Draft) := do
  match max with
  | none =>
    let (ids, d) ← copiesByTable node (min - 1) #[node] d
    let last ← ids.back?
    let (loop, d) := d.quantify .plus last
    return d.groupOf .sequence (ids.pop.push loop).toList
  | some max =>
    if min = 0 then
      let (inner, d) ← optionalsByTable node (max - 1) none d
      let (body, d) := groupFrom .sequence node inner.toList d
      return d.quantify .optional body
    else
      let (ids, d) ← copiesByTable node (min - 1) #[node] d
      let (tail, d) ← optionalsByTable node (max - min) none d
      return d.groupOf .sequence (ids.toList ++ tail.toList)

/-- Spells out consistent bounds. -/
def expandByTable (d : Draft) (node : Nat) (o : Occurrence) : Option (Nat × Draft) :=
  match o.min.toNat, o.max.map UInt32.toNat with
  | _, some 0 => some (d.leaf .empty)
  | 1, some 1 => some (node, d)
  | 0, some 1 => some (d.quantify .optional node)
  | 0, none => some (d.quantify .star node)
  | 1, none => some (d.quantify .plus node)
  | min, max => d.spellOutByTable node min max

/-- Carries out a command. The outcome is an id or a failure, with the draft as it then is; there is
none if an entry is looked up that is missing. -/
def carryOut (d : Draft) : Command → Option (Except Failure Nat × Draft)
  | .leaf term => some (.ok (d.leaf term).1, (d.leaf term).2)
  | .particle label term => some (.ok (d.particle label term).1, (d.particle label term).2)
  | .group kind left right => some (.ok (d.group kind left right).1, (d.group kind left right).2)
  | .quantified quantifier body =>
    some (.ok (d.quantify quantifier body).1, (d.quantify quantifier body).2)
  | .groupOf kind items => some (.ok (d.groupOf kind items).1, (d.groupOf kind items).2)
  | .repeated node o =>
    match d.checkExpansion node o with
    | .error e => some (.error e, d)
    | .ok () => do
      let (i, d) ← d.expandByTable node o
      return (.ok i, d)

variable {d d' d'' : Draft} {n : Node Nat} {t x : Tree} {s s' : Subtree} {members : List Nat}
  {i j base : Nat}

/-! ## Particles given on the way -/

@[simp] theorem size_tagLeaf (d : Draft) (i : Nat) :
    (d.tagLeaf i).nodes.size = d.nodes.size := by
  rcases d.tagLeaf_cases i with ⟨hsame, -⟩ | ⟨_, -, -, hsize, -, -⟩
  · rw [hsame]
  · exact hsize

/-- A node that is copied is given its particle, its copy comes last and is entered in the table. -/
theorem exists_of_copyNext {table table' : Std.HashMap Nat Nat}
    (h : copyNext (table, d) i = some (table', d')) : ∃ n f, (d.tagLeaf i).nodes[i]? = some n ∧
      table' = table.insert i d.nodes.size ∧ d' = ((d.tagLeaf i).add (n.map f)).2 := by
  obtain ⟨n, hn, h⟩ := Option.bind_eq_some_iff.1 h
  obtain ⟨m, hm, h⟩ := Option.bind_eq_some_iff.1 h
  obtain ⟨f, rfl⟩ := Node.exists_eq_map_of_lookUp hm
  obtain ⟨htable, hdraft⟩ := Prod.mk.inj (Option.some.inj h)
  refine ⟨n, f, hn, ?_, hdraft.symm⟩
  rw [← htable, ← d.size_tagLeaf i]

theorem getElem?_tagLeaf_of_ne (d : Draft) (h : j ≠ i) :
    (d.tagLeaf i).nodes[j]? = d.nodes[j]? := by
  rcases d.tagLeaf_cases i with ⟨hsame, -⟩ | ⟨_, -, -, -, -, hnode⟩
  · rw [hsame]
  · rw [hnode, if_neg h]

theorem tagLeaf_eq_self (h : d.nodes[i]? = some n) (hn : n.isLoose = false) : d.tagLeaf i = d := by
  rcases d.tagLeaf_cases i with ⟨hsame, -⟩ | ⟨term, hterm, hi, -⟩
  · exact hsame
  · obtain rfl := Option.some.inj (h.symm.trans hi)
    simp [Node.isLoose, Node.takesChild, Node.particle?, hterm] at hn

/-- Nodes added at the end make no difference to a leaf before them. -/
theorem tagLeaf_add (d : Draft) (n : Node Nat) (hi : i < d.nodes.size) :
    (d.add n).2.tagLeaf i = ((d.tagLeaf i).add n).2 := by
  unfold tagLeaf
  rw [getElem?_add, if_neg (Nat.ne_of_lt hi)]
  split
  · split
    · have hpush (m : Node Nat) :
          (d.nodes.push n).setIfInBounds i m = (d.nodes.setIfInBounds i m).push n := by
        rw [Array.setIfInBounds_def, dif_pos (by rw [Array.size_push]; omega),
          Array.setIfInBounds_def, dif_pos hi, Array.set_push, dif_pos hi]
      unfold add
      rw [hpush]
    · rfl
  · rfl

theorem tagLeaf_copyNode (d : Draft) (hi : i < d.nodes.size) (hij : j ≠ i) :
    (copyNode s base d j).tagLeaf i = copyNode s base (d.tagLeaf i) j := by
  unfold copyNode
  rw [getElem?_tagLeaf_of_ne d hij]
  split
  · exact d.tagLeaf_add _ hi
  · rfl

theorem size_le_copyNode (d : Draft) (s : Subtree) (base j : Nat) :
    d.nodes.size ≤ (copyNode s base d j).nodes.size := by
  unfold copyNode
  split
  · rw [size_add]
    exact Nat.le_succ _
  · exact Nat.le_refl _

/-- A leaf may be given its particle before the copies of other nodes are added. -/
theorem tagLeaf_foldl_copyNode (hi : i < d.nodes.size) (hmem : i ∉ members) :
    (members.foldl (copyNode s base) d).tagLeaf i =
      members.foldl (copyNode s base) (d.tagLeaf i) := by
  induction members generalizing d with
  | nil => rfl
  | cons j members ih =>
    obtain ⟨hij, hmem⟩ := not_or.1 (mt List.mem_cons.2 hmem)
    rw [List.foldl_cons, List.foldl_cons, ih (Nat.lt_of_lt_of_le hi (d.size_le_copyNode s base j))
      hmem, d.tagLeaf_copyNode hi (Ne.symm hij)]

theorem size_foldl_tagLeaf (d : Draft) (members : List Nat) :
    (members.foldl tagLeaf d).nodes.size = d.nodes.size := by
  induction members generalizing d with
  | nil => rfl
  | cons i members ih => rw [List.foldl_cons, ih, size_tagLeaf]

/-- Where no leaf lacks its particle, none is given one. -/
theorem Ready.tag_eq_self (h : d.Ready s.members) : d.tag s = d := by
  unfold tag
  generalize s.members = members at h
  induction members with
  | nil => rfl
  | cons i members ih =>
    obtain ⟨⟨n, hn, hloose⟩, hmembers⟩ := List.forall_mem_cons.1 h
    rw [List.foldl_cons, tagLeaf_eq_self hn hloose, ih hmembers]

/-! ## The subtree of a node that has been given particles -/

/-- Members are known from their tree. -/
theorem Subtree.Lists.members_eq (hs : s.Lists t) (hs' : s'.Lists t) : s.members = s'.members := by
  refine List.Perm.eq_of_pairwise (fun a b _ _ hab hba => (Nat.lt_asymm hab hba).elim)
    hs.ascending hs'.ascending ?_
  refine (List.perm_ext_iff_of_nodup ?_ ?_).2 fun i => by rw [hs.mem_members, hs'.mem_members]
  · exact hs.ascending.imp Nat.ne_of_lt
  · exact hs'.ascending.imp Nat.ne_of_lt

/-- A subtree has the same members and ranks in a draft that goes on from it. -/
theorem Extends.subtree_eq (h : d.Extends d') (hd : d.WellFormed) (hi : i < d.nodes.size) :
    d'.subtree i = d.subtree i := by
  obtain ⟨t, rfl, ht⟩ := hd.exists_standsIn hi
  obtain ⟨x, hx, hu⟩ := h.exists_standsIn ht
  have hs := (hd.lists_subtree ht).of_untagged hu
  have hs' := (h.wellFormed hd).lists_subtree hx
  rw [Tree.id_eq_of_untagged hu] at hs'
  have hmembers := hs'.members_eq hs
  show (⟨(d'.subtree t.id).members, .ofList (d'.subtree t.id).members.zipIdx⟩ : Subtree) = _
  rw [hmembers]
  rfl

/-! ## The table -/

/-- The table has the members' copies, which stand one after the other from `base` on. -/
def Tabulates (table : Std.HashMap Nat Nat) (base : Nat) (members : List Nat) : Prop :=
  ∀ k i : Nat, members[k]? = some i → table[i]? = some (base + k)

theorem Tabulates.insert {table : Std.HashMap Nat Nat} (h : Tabulates table base members)
    (hmem : i ∉ members) :
    Tabulates (table.insert i (base + members.length)) base (members ++ [i]) := by
  intro k j hk
  rw [List.getElem?_append] at hk
  rw [Std.HashMap.getElem?_insert]
  split at hk
  · have hne : i ≠ j := fun hij => hmem (hij ▸ List.mem_of_getElem? hk)
    rw [if_neg (by simpa using hne)]
    exact h k j hk
  · next hge =>
    obtain ⟨hlt, rfl⟩ := List.getElem?_eq_some_iff.1 hk
    rw [List.length_singleton] at hlt
    obtain rfl : k = members.length := by omega
    simp

section Table

variable (hd : d.WellFormed) (ht : t.StandsIn d.nodes) (hs : s.Lists t)

include hd ht hs

/-- The next node is copied with the help of the table, since its parts come before it. -/
theorem Copied.copyNext_eq {table : Std.HashMap Nat Nat} (h : d.Copied s members d')
    (hbegin : members <+: s.members) (hnext : s.members[members.length]? = some i)
    (htable : Tabulates table d.nodes.size members) (htag : d''.tagLeaf i = d') :
    copyNext (table, d'') i = some (table.insert i (d.nodes.size + members.length),
      copyNode s d.nodes.size d' i) := by
  have hi := (hs.mem_members i).1 (List.mem_of_getElem? hnext)
  rw [Tree.ids_eq_map_subtrees] at hi
  obtain ⟨u, hu, rfl⟩ := List.mem_map.1 hi
  have hnode : d'.nodes[u.id]? = some u.node := h.grows.node u.id u.node (ht u hu)
  have hparts : ∀ c ∈ u.node.children, table[c]? = some (s.moved d.nodes.size c) := by
    intro c hc
    rw [Tree.children_node] at hc
    obtain ⟨v, hv, rfl⟩ := List.mem_map.1 hc
    have hrank := hs.getElem?_rank
      (Tree.id_mem_ids_of_mem_subtrees (Tree.mem_subtrees_of_part hu hv))
    have hlt := hs.lt_of_lt hrank hnext (hd.lt_of_part ht hu hv)
    obtain ⟨rest, hrest⟩ := hbegin
    rw [← hrest, List.getElem?_append_left hlt] at hrank
    exact htable _ _ hrank
  unfold copyNext copyNode
  dsimp only
  rw [htag, hnode, ← h.size]
  show (u.node.lookUp table).bind _ = _
  rw [Node.lookUp_eq_some hparts]
  rfl

/-- After any number of nodes the table has their copies, and the draft is the one in which the
leaves were given particles before anything was copied. -/
theorem exists_table (hbegin : members <+: s.members) : ∃ table,
    members.foldlM copyNext (∅, d) =
        some (table, members.foldl (copyNode s d.nodes.size) (members.foldl tagLeaf d)) ∧
      Tabulates table d.nodes.size members := by
  induction members using List.reverseRecOn with
  | nil => exact ⟨∅, rfl, fun k i hk => by simp at hk⟩
  | append_singleton members i ih =>
    obtain ⟨rest, hrest⟩ := hbegin
    have hbegin : members <+: s.members := ⟨i :: rest, by rw [← hrest, List.append_assoc]; rfl⟩
    have hnext : s.members[members.length]? = some i := by simp [← hrest]
    obtain ⟨table, hfold, htable⟩ := ih hbegin
    have hmem : i ∉ members := by
      have hnodup : (members ++ [i] ++ rest).Nodup := hrest ▸ hs.ascending.imp Nat.ne_of_lt
      intro hi
      have hne := (List.nodup_append.1 (List.nodup_append.1 hnodup).1).2.2 i hi i
      exact hne (List.mem_singleton_self i) rfl
    have hi : i < d.nodes.size :=
      ht.lt_size ((hs.mem_members i).1 (List.mem_of_getElem? hnext))
    -- the particles of the leaves so far, then the copies so far
    let d₁ := (members ++ [i]).foldl tagLeaf d
    have hd₁ : d.Extends d₁ := d.extends_foldl_tagLeaf _
    have hsize : d₁.nodes.size = d.nodes.size := d.size_foldl_tagLeaf _
    obtain ⟨x, hx, hu⟩ := hd₁.exists_standsIn ht
    have hs₁ := hs.of_untagged hu
    have hcopied := copied_foldl (hd₁.wellFormed hd) hx hs₁ hbegin
    have htag : (members.foldl (copyNode s d.nodes.size) (members.foldl tagLeaf d)).tagLeaf i =
        members.foldl (copyNode s d₁.nodes.size) d₁ := by
      rw [tagLeaf_foldl_copyNode (by rwa [size_foldl_tagLeaf]) hmem, hsize]
      show _ = members.foldl _ ((members ++ [i]).foldl tagLeaf d)
      rw [List.foldl_append]
      rfl
    have hstep := hcopied.copyNext_eq (hd₁.wellFormed hd) hx hs₁ hbegin hnext (hsize.symm ▸ htable)
      htag
    rw [hsize] at hstep
    refine ⟨_, ?_, htable.insert hmem⟩
    rw [List.foldlM_append, hfold, List.foldl_append]
    show copyNext (table, _) i >>= _ = _
    rw [hstep]
    rfl

end Table

/-- Copying by a table gives particles to the leaves and adds a copy. -/
theorem copyByTable_eq (hd : d.WellFormed) (hi : i < d.nodes.size) :
    d.copyByTable i = some ((d.tag (d.subtree i)).copy (d.subtree i)) := by
  obtain ⟨t, rfl, ht⟩ := hd.exists_standsIn hi
  have hs := hd.lists_subtree ht
  obtain ⟨table, hfold, htable⟩ := exists_table hd ht hs (List.prefix_refl _)
  have htop := htable _ _ (hs.getElem?_rank t.id_mem_ids)
  have hrank := hs.rank_id fun j hj => hd.le_of_mem_ids ht hj
  unfold copyByTable copy tag
  rw [hfold, size_foldl_tagLeaf, ← hrank]
  show table[t.id]?.bind _ = _
  rw [htop]
  rfl

/-! ## Whole commands -/

/-- The node has the subtree, and its leaves have their particles. -/
structure HasReady (d : Draft) (i : Nat) (s : Subtree) : Prop where
  wellFormed : d.WellFormed
  lt_size : i < d.nodes.size
  subtree_eq : d.subtree i = s
  ready : d.Ready s.members

theorem hasReady_tag (hd : d.WellFormed) (hi : i < d.nodes.size) :
    (d.tag (d.subtree i)).HasReady i (d.subtree i) := by
  obtain ⟨t, rfl, ht⟩ := hd.exists_standsIn hi
  have htag := d.extends_tag (d.subtree t.id)
  refine ⟨htag.wellFormed hd, Nat.lt_of_lt_of_le hi htag.size_le, htag.subtree_eq hd hi, ?_⟩
  exact ready_tag fun j hj => ht.lt_size (((hd.lists_subtree ht).mem_members j).1 hj)

theorem grows_groupFrom (kind : GroupKind) {joined : Nat} {items : List Nat}
    (hjoined : joined < d.nodes.size) (hitems : ∀ j ∈ items, j < d.nodes.size) :
    d.Grows (groupFrom kind joined items d).2 ∧
      (groupFrom kind joined items d).1 < (groupFrom kind joined items d).2.nodes.size := by
  induction items generalizing d joined with
  | nil => exact ⟨.refl d, hjoined⟩
  | cons item items ih =>
    obtain ⟨hitem, hitems⟩ := List.forall_mem_cons.1 hitems
    have hgrows := grows_group kind hjoined hitem
    have hnew : (d.group kind joined item).1 < (d.group kind joined item).2.nodes.size := by
      simp [group]
    obtain ⟨hgrows', hlt⟩ := ih hnew fun j hj =>
      Nat.lt_of_lt_of_le (hitems j hj) hgrows.size_le
    exact ⟨hgrows.trans hgrows', hlt⟩

namespace HasReady

theorem of_grows (h : d.HasReady i s) (hd : d.Grows d') : d'.HasReady i s where
  wellFormed := hd.wellFormed h.wellFormed
  lt_size := Nat.lt_of_lt_of_le h.lt_size hd.size_le
  subtree_eq := (hd.extends.subtree_eq h.wellFormed h.lt_size).trans h.subtree_eq
  ready j hj := by
    obtain ⟨n, hn, hloose⟩ := h.ready j hj
    exact ⟨n, hd.node j n hn, hloose⟩

/-- A copy is all that is added. -/
theorem copyByTable_eq (h : d.HasReady i s) : d.copyByTable i = some (d.copy s) := by
  rw [Draft.copyByTable_eq h.wellFormed h.lt_size, h.subtree_eq, h.ready.tag_eq_self]

theorem grows_copy (h : d.HasReady i s) :
    d.Grows (d.copy s).2 ∧ (d.copy s).1 < (d.copy s).2.nodes.size := by
  obtain ⟨t, rfl, ht⟩ := h.wellFormed.exists_standsIn h.lt_size
  obtain ⟨u, -, hid, hgrows, hholds⟩ :=
    exists_copy h.wellFormed ht (h.subtree_eq ▸ h.wellFormed.lists_subtree ht)
  refine ⟨hgrows, ?_⟩
  rw [hid]
  exact hholds.lt_size u.id (by simpa using u.id_mem_ids)

theorem copiesByTable_eq (h : d.HasReady i s) (n : Nat) (ids : Array Nat) :
    copiesByTable i n ids d = some (copies s n ids d) ∧ d.Grows (copies s n ids d).2 := by
  induction n generalizing d ids with
  | zero => exact ⟨rfl, .refl d⟩
  | succ n ih =>
    obtain ⟨hgrows, -⟩ := h.grows_copy
    obtain ⟨hcopies, hgrows'⟩ := ih (h.of_grows hgrows) (ids.push (d.copy s).1)
    refine ⟨?_, hgrows.trans hgrows'⟩
    rw [copiesByTable, h.copyByTable_eq]
    exact hcopies

theorem optionalsByTable_eq (h : d.HasReady i s) (n : Nat) (inner : Option Nat)
    (hinner : ∀ j ∈ inner.toList, j < d.nodes.size) :
    optionalsByTable i n inner d = some (optionals s n inner d) := by
  induction n generalizing d inner with
  | zero => rfl
  | succ n ih =>
    obtain ⟨hgrows, hlt⟩ := h.grows_copy
    obtain ⟨hgrows', hlt'⟩ := grows_groupFrom .sequence hlt fun j hj =>
      Nat.lt_of_lt_of_le (hinner j hj) hgrows.size_le
    have hgrows'' := hgrows.trans (hgrows'.trans (grows_quantify .optional hlt'))
    rw [optionalsByTable, h.copyByTable_eq, optionals_succ]
    refine ih (h.of_grows hgrows'') _ (List.forall_mem_singleton.2 ?_)
    rw [quantify, size_add]
    exact Nat.lt_succ_self _

end HasReady

/-- The last of several copies may be made apart. -/
theorem copies_succ (s : Subtree) (n : Nat) (ids : Array Nat) (d : Draft) :
    copies s (n + 1) ids d =
      let before := copies s n ids d
      let last := before.2.copy s
      (before.1.push last.1, last.2) := by
  induction n generalizing ids d with
  | zero => rfl
  | succ n ih => exact ih (ids.push (d.copy s).1) (d.copy s).2

section Spelling

variable (hd : d.WellFormed) (hi : i < d.nodes.size)

include hd hi

/-- The first copy gives the leaves their particles, so they may as well have them before. -/
theorem copyByTable_tag : d.copyByTable i = (d.tag (d.subtree i)).copyByTable i := by
  rw [copyByTable_eq hd hi, (hasReady_tag hd hi).copyByTable_eq]

/-- One copy at least, of a node whose leaves may lack their particles. -/
theorem copiesByTable_succ (n : Nat) (ids : Array Nat) : copiesByTable i (n + 1) ids d =
    some (copies (d.subtree i) (n + 1) ids (d.tag (d.subtree i))) := by
  have hcopies := ((hasReady_tag hd hi).copiesByTable_eq (n + 1) ids).1
  rw [copiesByTable] at hcopies ⊢
  rw [copyByTable_tag hd hi, hcopies]

/-- One optional copy at least, of a node whose leaves may lack their particles. -/
theorem optionalsByTable_succ (n : Nat) : optionalsByTable i (n + 1) none d =
    some (optionals (d.subtree i) (n + 1) none (d.tag (d.subtree i))) := by
  have hoptionals := (hasReady_tag hd hi).optionalsByTable_eq (n + 1) none (by simp)
  rw [optionalsByTable] at hoptionals ⊢
  rw [copyByTable_tag hd hi, hoptionals]

/-- Without a greatest number, copies are made up to the least and the last is repeated. -/
theorem spellOutByTable_unbounded {min : Nat} (hmin : 2 ≤ min) :
    d.spellOutByTable i min none = some (d.spellOut i min none) := by
  obtain ⟨k, rfl⟩ := Nat.exists_eq_add_of_le' hmin
  have hcopies := copiesByTable_succ hd hi k #[i]
  rw [copies_succ] at hcopies
  unfold spellOutByTable spellOut
  dsimp only
  rw [show k + 2 - 1 = k + 1 from rfl, hcopies]
  show Option.bind (Array.back? _) _ = _
  rw [Array.back?_push]
  simp

/-- Up to a greatest number, either a copy must stand before the optional ones, or only the node
itself, or not even that. -/
theorem spellOutByTable_bounded {min max : Nat} (hmax : 2 ≤ max) (hle : min ≤ max) :
    d.spellOutByTable i min (some max) = some (d.spellOut i min (some max)) := by
  obtain ⟨m, rfl⟩ := Nat.exists_eq_add_of_le' hmax
  have hoptionals := optionalsByTable_succ hd hi m
  unfold spellOutByTable spellOut
  dsimp only
  by_cases hzero : min = 0
  · rw [if_pos hzero, if_pos hzero, show m + 2 - 1 = m + 1 from rfl, hoptionals]
    generalize optionals (d.subtree i) (m + 1) none (d.tag (d.subtree i)) = out
    obtain ⟨inner, d'⟩ := out
    cases inner <;> rfl
  rw [if_neg hzero, if_neg hzero]
  by_cases hone : min = 1
  · subst hone
    show (optionalsByTable i (m + 1) none d).bind _ = _
    rw [hoptionals]
    rfl
  · obtain ⟨k, rfl⟩ := Nat.exists_eq_add_of_le' (show 2 ≤ min by omega)
    obtain ⟨-, hgrows⟩ := (hasReady_tag hd hi).copiesByTable_eq (k + 1) #[i]
    have htail := ((hasReady_tag hd hi).of_grows hgrows).optionalsByTable_eq (m + 2 - (k + 2)) none
      (by simp)
    rw [show k + 2 - 1 = k + 1 from rfl, copiesByTable_succ hd hi]
    show (optionalsByTable i (m + 2 - (k + 2)) none _).bind _ = _
    rw [htail]
    rfl

theorem expandByTable_eq {o : Occurrence} (ho : o.isConsistent = true) :
    d.expandByTable i o = some (d.expand i o) := by
  have hle := o.isConsistent_iff.1 ho
  unfold expandByTable expand
  generalize o.min.toNat = min at *
  generalize o.max.map UInt32.toNat = max at *
  match max, min with
  | none, 0 => rfl
  | none, 1 => rfl
  | none, k + 2 => exact spellOutByTable_unbounded hd hi (Nat.le_add_left 2 k)
  | some 0, _ => rfl
  | some 1, 0 => rfl
  | some 1, 1 => rfl
  | some 1, k + 2 => exact absurd (hle 1 rfl) (by omega)
  | some (m + 2), 0 => exact spellOutByTable_bounded hd hi (by omega) (by omega)
  | some (m + 2), 1 => exact spellOutByTable_bounded hd hi (by omega) (by omega)
  | some (m + 2), k + 2 => exact spellOutByTable_bounded hd hi (by omega) (hle _ rfl)

end Spelling

/-- No entry is looked up that is missing: a command has the outcome that it has without a table. If
it fails, the draft is as it was. -/
theorem carryOut_eq {c : Command} (hd : d.WellFormed)
    (hc : ∀ operand ∈ c.operands, operand < d.nodes.size) : d.carryOut c =
      match d.perform c with
      | .ok (i, d') => some (.ok i, d')
      | .error e => some (.error e, d) := by
  cases c with
  | leaf | particle | group | quantified | groupOf => rfl
  | repeated node o =>
    simp only [carryOut, perform, repeated]
    cases hcheck : d.checkExpansion node o with
    | error e => rfl
    | ok u =>
      dsimp only
      rw [expandByTable_eq hd (hc node (by simp [Command.operands]))
        (checkExpansion_eq_ok_iff.1 hcheck).1]
      rfl

end Draft

end ElementContent
