import ElementContent.Proofs.Position.Analysis
import ElementContent.Proofs.Position.Arena

/-!
# The pass that moves its results

A pass over the nodes can keep the summaries in a table and take those of the parts of a node out of
it when the node is summarized. A summary that is taken twice, or before it has been computed, would
be missing; a pass that puts a fallback in its place would go on with a wrong one. It does not come
to that: where the walk has succeeded, every node has one parent, which comes after it, so that a
summary stays in the table from the step of its node to the step of the parent. What the fallback is
makes no difference therefore, even if there is none.

- `takeAt?`, `Node.takeParts?`: taking the parts of a node out of a table.
- `passNode?`, `Visit.pass?`: the pass at one node, which takes the parts, summarizes the node, adds
  its link to the table of followers and enters the summary; and the pass so far.
- `Declaration.Waits`: the node has been summarized, and its parent has not.
- `Declaration.pass?_eq`, `Declaration.holdsWaiting_passed`: what the tables hold before any step.
- `Declaration.analyze?_eq`: walk and pass together have the outcome of the analysis.
-/

namespace ElementContent

/-! ## One parent -/

namespace Tree

variable {t u v x y : Tree} {k k' : Nat}

theorem at?_concat {path : List Nat} (hu : t.at? path = some u) (hx : u.parts[k]? = some x) :
    t.at? (path ++ [k]) = some x := by
  induction path generalizing t with
  | nil =>
    obtain rfl := Option.some.inj hu
    exact Option.bind_eq_some_iff.2 ⟨x, hx, rfl⟩
  | cons j path ih =>
    obtain ⟨w, hw, hu⟩ := Option.bind_eq_some_iff.1 hu
    exact Option.bind_eq_some_iff.2 ⟨w, hw, ih hu⟩

/-- No node is a part of two nodes, or twice a part of one. -/
theorem eq_of_part (h : t.ids.Nodup) (hu : u ∈ t.subtrees) (hv : v ∈ t.subtrees)
    (hx : u.parts[k]? = some x) (hy : v.parts[k']? = some y) (hid : x.id = y.id) :
    u = v ∧ k = k' := by
  obtain ⟨p, hp⟩ := exists_at?_of_mem_subtrees hu
  obtain ⟨q, hq⟩ := exists_at?_of_mem_subtrees hv
  have hpath := pathsDiffer_of_nodup h _ _ _ _ (at?_concat hp hx) (at?_concat hq hy) hid
  obtain ⟨rfl, hk⟩ := List.append_inj' hpath rfl
  exact ⟨Option.some.inj (hp.symm.trans hq), (List.cons.inj hk).1⟩

theorem eq_of_mem_children {i : Nat} (h : t.ids.Nodup) (hu : u ∈ t.subtrees) (hv : v ∈ t.subtrees)
    (hi : i ∈ u.node.children) (hi' : i ∈ v.node.children) : u = v := by
  rw [children_node] at hi hi'
  obtain ⟨x, hx, rfl⟩ := List.mem_map.1 hi
  obtain ⟨y, hy, hid⟩ := List.mem_map.1 hi'
  obtain ⟨k, hk⟩ := List.getElem?_of_mem hx
  obtain ⟨k', hk'⟩ := List.getElem?_of_mem hy
  exact (eq_of_part h hu hv hk hk' hid.symm).1

theorem nodup_children (h : t.ids.Nodup) (hu : u ∈ t.subtrees) : u.node.children.Nodup := by
  rw [children_node]
  refine List.nodup_iff_getElem?_ne_getElem?.2 fun i j hij hj heq => ?_
  rw [List.length_map] at hj
  have hi : i < u.parts.length := Nat.lt_trans hij hj
  rw [List.getElem?_map, List.getElem?_map, List.getElem?_eq_getElem hi,
    List.getElem?_eq_getElem hj] at heq
  have hpart := eq_of_part h hu hu (List.getElem?_eq_getElem hi) (List.getElem?_eq_getElem hj)
    (Option.some.inj heq)
  exact Nat.ne_of_lt hij hpart.2

/-- The topmost node is no part. -/
theorem id_not_mem_children (h : t.ids.Nodup) (hu : u ∈ t.subtrees) :
    t.id ∉ u.node.children := by
  rw [children_node]
  intro hmem
  obtain ⟨x, hx, hid⟩ := List.mem_map.1 hmem
  obtain ⟨k, hk⟩ := List.getElem?_of_mem hx
  obtain ⟨p, hp⟩ := exists_at?_of_mem_subtrees hu
  have hpath := pathsDiffer_of_nodup h _ [] _ _ (at?_concat hp hk) rfl hid
  simp at hpath

end Tree

/-! ## Taking out of a table -/

section Take

variable {α : Type}

/-- Takes an entry out of a table; `missing` stands in for one that is not there. -/
def takeAt? (missing : Option α) (entries : Array (Option α)) (i : Nat) :
    Option (α × Array (Option α)) := do
  let entry ← entries[i]?
  let x ← entry.or missing
  return (x, ← writeAt? entries i none)

/-- The node with the entries for its parts, which are taken out of the table, left to right. -/
def Node.takeParts? (missing : Option α) (entries : Array (Option α)) :
    Node Nat → Option (Node α × Array (Option α))
  | leaf term particle => some (.leaf term particle, entries)
  | group kind left right => do
    let (x, entries) ← takeAt? missing entries left
    let (y, entries) ← takeAt? missing entries right
    return (.group kind x y, entries)
  | quantified quantifier body => do
    let (x, entries) ← takeAt? missing entries body
    return (.quantified quantifier x, entries)

/-- Nothing is left at the given places. -/
def vacate (f : Nat → Option α) (places : List Nat) : Nat → Option α :=
  places.foldl (fun f i => Function.update f i none) f

theorem vacate_eq_some_iff {f : Nat → Option α} {places : List Nat} {i : Nat} {x : α} :
    vacate f places i = some x ↔ f i = some x ∧ i ∉ places := by
  induction places generalizing f with
  | nil => simp [vacate]
  | cons j places ih =>
    show vacate (Function.update f j none) places i = some x ↔ _
    rw [ih, Function.update_apply]
    by_cases hij : i = j
    · simp [hij]
    · simp [hij]

variable {missing : Option α} {n : Nat} {f : Nat → Option α}

theorem takeAt?_tabulate {i : Nat} {x : α} (hi : i < n) (hx : f i = some x) :
    takeAt? missing (tabulate n f) i = some (x, tabulate n (Function.update f i none)) := by
  simp [takeAt?, getElem?_tabulate hi, hx, writeAt?_tabulate hi]

/-- Where there is an entry for each part and no part stands twice, the entries of all parts are
taken, and nothing else is. -/
theorem Node.takeParts?_tabulate {node : Node Nat} {value : Nat → α}
    (h : ∀ c ∈ node.children, c < n ∧ f c = some (value c)) (hnodup : node.children.Nodup) :
    node.takeParts? missing (tabulate n f) =
      some (node.map value, tabulate n (vacate f node.children)) := by
  cases node with
  | leaf term particle => rfl
  | group kind left right =>
    obtain ⟨hl, hfl⟩ := h left (by simp [children])
    obtain ⟨hr, hfr⟩ := h right (by simp [children])
    have hne : right ≠ left := by
      simp only [children, List.nodup_cons, List.mem_singleton] at hnodup
      exact Ne.symm hnodup.1
    have hfr : Function.update f left none right = some (value right) := by
      rwa [Function.update_of_ne hne]
    simp only [takeParts?, takeAt?_tabulate hl hfl, takeAt?_tabulate hr hfr,
      Option.bind_eq_bind, Option.bind_some]
    rfl
  | quantified quantifier body =>
    obtain ⟨hb, hfb⟩ := h body (by simp [children])
    rw [takeParts?, takeAt?_tabulate hb hfb]
    rfl

end Take

/-! ## One node -/

namespace Summary

/-- The summary of a leaf, if there is room for its position. -/
def leaf? (capacity : Nat) : Option Nat → Option Summary
  | some p => do
    let s ← PositionSet.singleton? capacity p
    return ⟨s, s, false, none⟩
  | none => some (leaf capacity none)

/-- The summary of a node, the position of a leaf being looked up in an array. -/
def ofNode? (capacity : Nat) (positions : Array (Option Nat)) (i : Nat) :
    Node Summary → Option Summary
  | .leaf _ _ => do leaf? capacity (← positions[i]?)
  | n => some (ofNode capacity (fun _ => none) i n)

theorem leaf?_eq {capacity : Nat} {position : Option Nat}
    (h : ∀ p, position = some p → p < capacity) :
    leaf? capacity position = some (leaf capacity position) := by
  cases position with
  | none => rfl
  | some p =>
    rw [leaf?, PositionSet.singleton?_eq (h p rfl)]
    rfl

theorem ofNode?_eq {capacity size i : Nat} {position : Nat → Option Nat} {n : Node Summary}
    (hi : i < size) (h : ∀ i p, position i = some p → p < capacity) :
    ofNode? capacity (tabulate size position) i n = some (ofNode capacity position i n) := by
  cases n with
  | leaf term particle =>
    rw [ofNode?, getElem?_tabulate hi]
    exact leaf?_eq (h i)
  | group kind l r => cases kind <;> rfl
  | quantified q s => cases q <;> rfl

end Summary

/-- Adds what a link says to the table of what follows each position; none if a position is missing
there. -/
def addLink? (follow : Array PositionSet) (link : Link) : Option (Array PositionSet) :=
  link.source.members.foldlM (changeAt? (·.union link.target)) follow

theorem addLink?_eq {follow : Array PositionSet} {link : Link}
    (h : ∀ p, link.source.contains p = true → p < follow.size) :
    addLink? follow link = some (Analysis.addLink follow link) :=
  foldlM_changeAt? (fun p hp => h p (PositionSet.mem_members.1 hp)) _

namespace Summary

variable {capacity : Nat} {position : Nat → Option Nat}

/-- A position that ends a word of a tree is one of its own. -/
theorem lt_of_contains_last (hroom : ∀ i p, position i = some p → p < capacity) {t : Tree} {p : Nat}
    (hp : (t.eval (ofNode capacity position)).last.contains p = true) : p < capacity := by
  obtain ⟨u, hu⟩ := ((isExact_eval hroom t).last_iff p).1 hp
  obtain ⟨i, -, hi⟩ := Tree.occurs_marked ⟨u, [], hu⟩
  exact hroom i p hi

/-- There is room for the positions from which a node makes a link. -/
theorem lt_of_link (hroom : ∀ i p, position i = some p → p < capacity) {t : Tree} {k : Link}
    (hk : (t.eval (ofNode capacity position)).link = some k) {p : Nat}
    (hp : k.source.contains p = true) : p < capacity := by
  cases t with
  | leaf i term particle =>
    have hleaf : (leaf capacity (position i)).link = some k := hk
    cases hi : position i <;> simp [leaf, hi] at hleaf
  | group i kind l r =>
    cases kind with
    | sequence =>
      obtain rfl := Option.some.inj hk
      exact lt_of_contains_last hroom hp
    | choice => cases hk
  | quantified i q body =>
    cases q with
    | optional => cases hk
    | star =>
      obtain rfl := Option.some.inj hk
      exact lt_of_contains_last hroom hp
    | plus =>
      obtain rfl := Option.some.inj hk
      exact lt_of_contains_last hroom hp

end Summary

theorem Analysis.linksSeen_push (n : Numbering) (summaries : Array Summary) (s : Summary) :
    linksSeen n (summaries.push s) = linksSeen n summaries ++
      (if n.seen.contains summaries.size then s.link else none).toList := by
  rw [linksSeen, Array.toList_push, List.zipIdx_append, List.filterMap_append, linksSeen]
  simp only [List.zipIdx_singleton, List.filterMap_cons, List.filterMap_nil, Nat.zero_add,
    Array.length_toList]
  split <;> simp_all

/-- What the pass has computed so far. -/
structure Pass where
  /-- For each node, its summary, while it waits to be taken. -/
  summaries : Array (Option Summary)
  /-- For each position, those that may come directly after it. -/
  follow : Array PositionSet

/-- Nothing computed yet. -/
def Pass.start (size capacity : Nat) : Pass :=
  ⟨.replicate size none, .replicate capacity (.empty capacity)⟩

/-- Passes over one node, if it has been visited: takes the summaries of its parts, summarizes the
node, adds the link that it makes and enters the summary. -/
def passNode? (missing : Option Summary) (nodes : Array (Node Nat)) (v : Visit) (p : Pass)
    (i : Nat) : Option Pass := do
  if ← v.visited[i]? then
    let node ← nodes[i]?
    let (node, summaries) ← node.takeParts? missing p.summaries
    let s ← Summary.ofNode? v.leaves.size v.positions i node
    let follow ← s.link.toList.foldlM addLink? p.follow
    return ⟨← writeAt? summaries i (some s), follow⟩
  else return p

/-- The pass over the nodes before `i`. -/
def Visit.pass? (missing : Option Summary) (d : Declaration) (v : Visit) (i : Nat) : Option Pass :=
  (List.range i).foldlM (passNode? missing d.nodes v) (.start d.nodes.size v.leaves.size)

namespace Declaration

/-- A node has been summarized before step `i`, and no node that has it as a part. -/
def Waits (d : Declaration) (i j : Nat) : Prop :=
  j < i ∧ j ∈ d.tree.ids ∧
    ∀ (k : Nat) (n : Node Nat), k < i → k ∈ d.tree.ids → d.nodes[k]? = some n → j ∉ n.children

/-- What the table of summaries holds before step `i`. A summary is there exactly while its node
waits; so all parts of the node at `i` are there if that is to be summarized, and at the end there
is the root. -/
structure HoldsWaiting (d : Declaration) (p : Pass) (i : Nat) : Prop where
  size_eq : p.summaries.size = d.nodes.size
  present_iff : ∀ j, (∃ s, p.summaries[j]? = some (some s)) ↔ d.Waits i j
  parts : ∀ n, i ∈ d.tree.ids → d.nodes[i]? = some n →
    ∀ c ∈ n.children, ∃ s, p.summaries[c]? = some (some s)
  root : i = d.nodes.size → ∃ s, p.summaries[d.root]? = some (some s)

variable {d : Declaration} {i j : Nat}

/-- A node of the tree is the topmost one of a subtree. -/
theorem exists_subtree {n : Node Nat} (hi : i ∈ d.tree.ids) (hn : d.nodes[i]? = some n) :
    ∃ u ∈ d.tree.subtrees, u.id = i ∧ u.node = n := by
  rw [Tree.ids_eq_map_subtrees] at hi
  obtain ⟨u, hu, rfl⟩ := List.mem_map.1 hi
  exact ⟨u, hu, rfl, Option.some.inj ((d.standsIn_tree u hu).symm.trans hn)⟩

theorem waits_root (h : d.tree.ids.Nodup) : d.Waits d.nodes.size d.root := by
  refine ⟨d.root_lt, d.id_tree ▸ d.tree.id_mem_ids, fun k n hk hmem hn => ?_⟩
  obtain ⟨u, hu, rfl, rfl⟩ := exists_subtree hmem hn
  rw [← d.id_tree]
  exact Tree.id_not_mem_children h hu

/-- The parts of a node wait when its turn comes. -/
theorem waits_of_mem_children (h : d.tree.ids.Nodup) {u : Tree} (hu : u ∈ d.tree.subtrees)
    (hj : j ∈ u.node.children) : d.Waits u.id j := by
  have hnode := d.standsIn_tree u hu
  refine ⟨?_, ?_, fun k n hk hmem hn hjn => ?_⟩
  · obtain ⟨hi, hget⟩ := Array.getElem?_eq_some_iff.1 hnode
    exact d.earlier u.id hi j (hget ▸ hj)
  · rw [Tree.children_node] at hj
    obtain ⟨x, hx, rfl⟩ := List.mem_map.1 hj
    exact Tree.id_mem_ids_of_mem_subtrees (Tree.mem_subtrees_of_part hu hx)
  · obtain ⟨v, hv, rfl, rfl⟩ := exists_subtree hmem hn
    obtain rfl := Tree.eq_of_mem_children h hu hv hj hjn
    exact Nat.lt_irrefl _ hk

/-- A step over a node takes its parts and lets the node wait. -/
theorem waits_succ_iff {u : Tree} (hu : u ∈ d.tree.subtrees) :
    d.Waits (u.id + 1) j ↔ j = u.id ∨ d.Waits u.id j ∧ j ∉ u.node.children := by
  have hnode := d.standsIn_tree u hu
  have hmem := Tree.id_mem_ids_of_mem_subtrees hu
  constructor
  · rintro ⟨hlt, hj, hparts⟩
    by_cases heq : j = u.id
    · exact .inl heq
    · exact .inr ⟨⟨by omega, hj, fun k n hk => hparts k n (Nat.lt_succ_of_lt hk)⟩,
        hparts u.id u.node (Nat.lt_succ_self _) hmem hnode⟩
  · rintro (rfl | ⟨⟨hlt, hj, hparts⟩, hno⟩)
    · refine ⟨Nat.lt_succ_self _, hmem, fun k n hk _ hn hjn => ?_⟩
      -- a node that has it as a part comes after it
      obtain ⟨hi, hget⟩ := Array.getElem?_eq_some_iff.1 hn
      have := d.earlier k hi u.id (hget ▸ hjn)
      omega
    · refine ⟨Nat.lt_succ_of_lt hlt, hj, fun k n hk hkmem hn => ?_⟩
      rcases Nat.lt_succ_iff_lt_or_eq.1 hk with hk | rfl
      · exact hparts k n hk hkmem hn
      · obtain rfl := Option.some.inj (hnode.symm.trans hn)
        exact hno

theorem waits_succ_iff_of_not_mem (hi : i ∉ d.tree.ids) : d.Waits (i + 1) j ↔ d.Waits i j := by
  constructor
  · rintro ⟨hlt, hj, hparts⟩
    have hne : j ≠ i := fun heq => hi (heq ▸ hj)
    exact ⟨by omega, hj, fun k n hk => hparts k n (Nat.lt_succ_of_lt hk)⟩
  · rintro ⟨hlt, hj, hparts⟩
    refine ⟨Nat.lt_succ_of_lt hlt, hj, fun k n hk hkmem => hparts k n ?_ hkmem⟩
    rcases Nat.lt_succ_iff_lt_or_eq.1 hk with hk | rfl
    · exact hk
    · exact absurd hkmem hi

/-- The summary that the pass computes for a node. -/
def summary (d : Declaration) (capacity : Nat) (position : Nat → Option Nat) (i : Nat) : Summary :=
  ((d.collect (Summary.ofNode capacity position))[i]?).getD (.leaf capacity none)

variable {capacity : Nat} {position : Nat → Option Nat}

theorem getElem?_collect_id {u : Tree} (hu : u ∈ d.tree.subtrees) :
    (d.collect (Summary.ofNode capacity position))[u.id]? =
      some (u.eval (Summary.ofNode capacity position)) := by
  obtain ⟨hlt, hget⟩ := d.mem_subtrees hu
  rw [d.collect_eq_map_trees, Array.getElem?_map, Array.getElem?_eq_getElem hlt, hget]
  rfl

theorem summary_id {u : Tree} (hu : u ∈ d.tree.subtrees) :
    d.summary capacity position u.id = u.eval (Summary.ofNode capacity position) := by
  rw [summary, getElem?_collect_id hu]
  rfl

/-- A node is summarized from the summaries of its parts. -/
theorem ofNode_map_summary {u : Tree} (hu : u ∈ d.tree.subtrees) :
    Summary.ofNode capacity position u.id (u.node.map (d.summary capacity position)) =
      d.summary capacity position u.id := by
  have hparts : ∀ x ∈ u.parts, d.summary capacity position x.id =
      x.eval (Summary.ofNode capacity position) :=
    fun x hx => summary_id (Tree.mem_subtrees_of_part hu hx)
  rw [summary_id hu]
  cases u with
  | leaf i term particle => rfl
  | group i kind l r =>
    rw [Tree.eval, ← hparts l (by simp [Tree.parts]), ← hparts r (by simp [Tree.parts])]
    rfl
  | quantified i q body =>
    rw [Tree.eval, ← hparts body (by simp [Tree.parts])]
    rfl

/-! ## The whole pass -/

open Classical in
/-- The summaries that wait before step `i`. -/
noncomputable def waiting (d : Declaration) (capacity : Nat) (position : Nat → Option Nat)
    (i j : Nat) : Option Summary :=
  if d.Waits i j then some (d.summary capacity position j) else none

theorem waiting_eq_some_iff {s : Summary} : d.waiting capacity position i j = some s ↔
    d.Waits i j ∧ d.summary capacity position j = s :=
  Option.ite_none_right_eq_some.trans (and_congr_right fun _ => Option.some_inj)

/-- What the pass has computed before step `i`. -/
noncomputable def passed (d : Declaration) (n : Numbering) (i : Nat) : Pass where
  summaries := tabulate d.nodes.size (d.waiting n.leaves.size (n.positions[·]?) i)
  follow := (Analysis.linksSeen n
    ((d.collect (Summary.ofNode n.leaves.size (n.positions[·]?))).extract 0 i)).foldl
      Analysis.addLink (.replicate n.leaves.size (.empty n.leaves.size))

section

variable {limits : Limits} {n : Numbering} (missing : Option Summary)

theorem passed_zero : d.passed n 0 = .start d.nodes.size n.leaves.size := by
  have hnone : d.waiting n.leaves.size (n.positions[·]?) 0 = fun _ => none := by
    funext j
    exact if_neg fun h => Nat.not_lt_zero j h.1
  rw [passed, hnone, tabulate_const, Array.extract_zero]
  rfl

/-- The links before the next step are those before this one and that of the node, if it has been
visited. -/
theorem follow_passed_succ (hi : i < d.nodes.size) : (d.passed n (i + 1)).follow =
    ((if n.seen.contains i then (d.summary n.leaves.size (n.positions[·]?) i).link
      else none).toList).foldl Analysis.addLink (d.passed n i).follow := by
  have hlt : i < (d.collect (Summary.ofNode n.leaves.size (n.positions[·]?))).size := by
    rwa [d.size_collect]
  have hextract : (d.collect (Summary.ofNode n.leaves.size (n.positions[·]?))).extract 0 (i + 1) =
      ((d.collect (Summary.ofNode n.leaves.size (n.positions[·]?))).extract 0 i).push
        (d.summary n.leaves.size (n.positions[·]?) i) := by
    rw [summary, Array.getElem?_eq_getElem hlt, Option.getD_some, Array.push_extract_getElem hlt]
    simp
  rw [passed, hextract, Analysis.linksSeen_push, List.foldl_append]
  simp only [Array.size_extract, Nat.sub_zero, Nat.min_eq_left (Nat.le_of_lt hlt)]
  rfl

theorem seen_iff (hn : Numbering.ofTree limits d.tree = .ok n) :
    n.seen.contains i = true ↔ i ∈ d.tree.ids := by
  rw [← Std.HashSet.mem_iff_contains, (Numbering.ofTree_walked hn).seen_iff]
  simp [Numbering.start]

/-- The nodes that are marked are those of the tree. -/
theorem visited_iff (hn : Numbering.ofTree limits d.tree = .ok n) :
    (n.visit d.nodes.size).visited[i]? = some true ↔ i ∈ d.tree.ids := by
  by_cases hi : i < d.nodes.size
  · rw [Numbering.visit, getElem?_tabulate hi, Option.some_inj, seen_iff hn]
  · have hno : i ∉ d.tree.ids := fun hmem => hi (d.standsIn_tree.lt_size hmem)
    simp [Numbering.visit, tabulate, hi, hno]

section Step

variable {u : Tree}

/-- The summaries of the parts are in the table when the turn of the node comes. -/
theorem takeParts?_passed (hn : Numbering.ofTree limits d.tree = .ok n)
    (hu : u ∈ d.tree.subtrees) : u.node.takeParts? missing (d.passed n u.id).summaries =
      some (u.node.map (d.summary n.leaves.size (n.positions[·]?)), tabulate d.nodes.size
        (vacate (d.waiting n.leaves.size (n.positions[·]?) u.id) u.node.children)) := by
  have hnodup := (Numbering.ofTree_walked hn).nodup
  have hi : u.id < d.nodes.size := (Array.getElem?_eq_some_iff.1 (d.standsIn_tree u hu)).1
  refine Node.takeParts?_tabulate (fun c hc => ?_) (Tree.nodup_children hnodup hu)
  have hwaits := waits_of_mem_children hnodup hu hc
  exact ⟨Nat.lt_trans hwaits.1 hi, waiting_eq_some_iff.2 ⟨hwaits, rfl⟩⟩

/-- The positions of the link that the node makes are in the table of followers. -/
theorem addLinks_passed (hn : Numbering.ofTree limits d.tree = .ok n)
    (hu : u ∈ d.tree.subtrees) :
    (d.summary n.leaves.size (n.positions[·]?) u.id).link.toList.foldlM addLink?
      (d.passed n u.id).follow = some (d.passed n (u.id + 1)).follow := by
  have hi : u.id < d.nodes.size := (Array.getElem?_eq_some_iff.1 (d.standsIn_tree u hu)).1
  have hroom : ∀ i p : Nat, n.positions[i]? = some p → p < n.leaves.size :=
    fun _ _ => (Numbering.consistent_ofTree hn).lt_size
  rw [follow_passed_succ hi, if_pos ((seen_iff hn).2 (Tree.id_mem_ids_of_mem_subtrees hu))]
  cases hk : (d.summary n.leaves.size (n.positions[·]?) u.id).link with
  | none => rfl
  | some k =>
    rw [summary_id hu] at hk
    have hsource : ∀ p, k.source.contains p = true → p < (d.passed n u.id).follow.size := by
      intro p hp
      simpa [passed, Analysis.size_foldl_addLink] using Summary.lt_of_link hroom hk hp
    simp [addLink?_eq hsource]

/-- When its own summary has been entered, the node waits and its parts do not. -/
theorem writeAt?_passed (hu : u ∈ d.tree.subtrees) :
    writeAt? (tabulate d.nodes.size (vacate (d.waiting n.leaves.size (n.positions[·]?) u.id)
        u.node.children)) u.id (some (d.summary n.leaves.size (n.positions[·]?) u.id)) =
      some (d.passed n (u.id + 1)).summaries := by
  have hi : u.id < d.nodes.size := (Array.getElem?_eq_some_iff.1 (d.standsIn_tree u hu)).1
  rw [writeAt?_tabulate hi, Option.some_inj]
  refine tabulate_congr fun j _ => Option.ext fun s => ?_
  rw [Function.update_apply, waiting_eq_some_iff, waits_succ_iff hu]
  by_cases hj : j = u.id
  · simp [hj]
  · simp [hj, vacate_eq_some_iff, waiting_eq_some_iff, and_right_comm]

end Step

/-- A node that has not been visited changes nothing. -/
theorem passed_succ_of_not_mem (hn : Numbering.ofTree limits d.tree = .ok n)
    (hi : i < d.nodes.size) (hmem : i ∉ d.tree.ids) : d.passed n (i + 1) = d.passed n i := by
  have hfollow := d.follow_passed_succ (n := n) hi
  rw [if_neg (mt (seen_iff hn).1 hmem)] at hfollow
  have hsummaries : (d.passed n (i + 1)).summaries = (d.passed n i).summaries := by
    refine tabulate_congr fun j _ => Option.ext fun s => ?_
    rw [waiting_eq_some_iff, waiting_eq_some_iff, waits_succ_iff_of_not_mem hmem]
  exact congrArg₂ Pass.mk hsummaries hfollow

/-- A step of the pass finds what it looks up, and leaves what is to be there before the next. -/
theorem passNode?_passed (hn : Numbering.ofTree limits d.tree = .ok n) (hi : i < d.nodes.size) :
    passNode? missing d.nodes (n.visit d.nodes.size) (d.passed n i) i =
      some (d.passed n (i + 1)) := by
  have hread : (n.visit d.nodes.size).visited[i]? = some (n.seen.contains i) :=
    getElem?_tabulate hi
  unfold passNode?
  rw [hread, Option.bind_eq_bind, Option.bind_some]
  by_cases hmem : i ∈ d.tree.ids
  · rw [if_pos ((seen_iff hn).2 hmem)]
    rw [Tree.ids_eq_map_subtrees] at hmem
    obtain ⟨u, hu, rfl⟩ := List.mem_map.1 hmem
    have hroom : ∀ i p : Nat, n.positions[i]? = some p → p < n.leaves.size :=
      fun _ _ => (Numbering.consistent_ofTree hn).lt_size
    have hsummary : Summary.ofNode? (n.visit d.nodes.size).leaves.size
        (n.visit d.nodes.size).positions u.id
          (u.node.map (d.summary n.leaves.size (n.positions[·]?))) =
        some (d.summary n.leaves.size (n.positions[·]?) u.id) :=
      (Summary.ofNode?_eq hi hroom).trans (congrArg some (ofNode_map_summary hu))
    simp only [d.standsIn_tree u hu, takeParts?_passed missing hn hu, hsummary,
      addLinks_passed hn hu, writeAt?_passed hu, Option.bind_eq_bind, Option.bind_some]
    rfl
  · rw [if_neg (mt (seen_iff hn).1 hmem), passed_succ_of_not_mem hn hi hmem]
    rfl

/-- The pass comes as far as is asked. -/
theorem pass?_eq (hn : Numbering.ofTree limits d.tree = .ok n) (hi : i ≤ d.nodes.size) :
    (n.visit d.nodes.size).pass? missing d i = some (d.passed n i) := by
  unfold Visit.pass?
  induction i with
  | zero => exact congrArg some passed_zero.symm
  | succ i ih =>
    rw [List.range_succ, List.foldlM_append, ih (Nat.le_of_succ_le hi)]
    simp [passNode?_passed missing hn hi]

/-- The summaries in the table are those of the nodes that wait. -/
theorem exists_summary_iff : (∃ s, (d.passed n i).summaries[j]? = some (some s)) ↔ d.Waits i j := by
  by_cases hj : j < d.nodes.size
  · rw [passed, getElem?_tabulate hj]
    simp [waiting_eq_some_iff]
  · have hno : ¬ d.Waits i j := fun h => hj (d.standsIn_tree.lt_size h.2.1)
    simp [passed, tabulate, hj, hno]

theorem holdsWaiting_passed (hn : Numbering.ofTree limits d.tree = .ok n) (i : Nat) :
    d.HoldsWaiting (d.passed n i) i := by
  have hnodup := (Numbering.ofTree_walked hn).nodup
  refine ⟨size_tabulate, fun j => exists_summary_iff, fun node hi hnode c hc => ?_, ?_⟩
  · obtain ⟨u, hu, rfl, rfl⟩ := exists_subtree hi hnode
    exact exists_summary_iff.2 (waits_of_mem_children hnodup hu hc)
  · rintro rfl
    exact exists_summary_iff.2 (waits_root hnodup)

/-- At the end, the summary of the root is there to be taken. -/
theorem takeAt?_root (hn : Numbering.ofTree limits d.tree = .ok n) : ∃ rest,
    takeAt? missing (d.passed n d.nodes.size).summaries d.root =
      some (d.summary n.leaves.size (n.positions[·]?) d.root, rest) := by
  have hwaits := waits_root (Numbering.ofTree_walked hn).nodup
  exact ⟨_, takeAt?_tabulate d.root_lt (waiting_eq_some_iff.2 ⟨hwaits, rfl⟩)⟩

end

end Declaration

/-! ## Walk and pass -/

/-- An analysis with the position of each node in an array. -/
structure ArenaAnalysis where
  leaves : Array Leaf
  positions : Array (Option Nat)
  first : PositionSet
  last : PositionSet
  nullable : Bool
  follow : Array PositionSet

/-- The analysis with the position of each node in an array. -/
def Analysis.laidOut (a : Analysis) (size : Nat) : ArenaAnalysis :=
  ⟨a.leaves, tabulate size a.positionOf?, a.first, a.last, a.nullable, a.follow⟩

/-- The pass over the nodes that have been visited, and the summary of the root. -/
def Visit.analyze? (missing : Nat → Option Summary) (d : Declaration) (v : Visit) :
    Option ArenaAnalysis := do
  let p ← v.pass? (missing v.leaves.size) d d.nodes.size
  let (root, _) ← takeAt? (missing v.leaves.size) p.summaries d.root
  return ⟨v.leaves, v.positions, root.first, root.last, root.nullable, p.follow⟩

/-- The walk over the nodes of a declaration, and then the pass. What `missing` gives for the number
of leaves stands in for summaries that are missing. -/
def Declaration.analyze? (missing : Nat → Option Summary) (d : Declaration) (limits : Limits) :
    Option (Except Error ArenaAnalysis) := do
  match ← d.visit? limits with
  | .error e => return .error e
  | .ok v =>
    match limits.check .positions v.leaves.size with
    | .error e => return .error e
    | .ok () => return .ok (← v.analyze? missing d)

namespace Declaration

variable {d : Declaration} {limits : Limits}

theorem analyze?_visit {n : Numbering} (missing : Nat → Option Summary)
    (hn : Numbering.ofTree limits d.tree = .ok n) :
    (n.visit d.nodes.size).analyze? missing d =
      some ((Analysis.ofNumbering d n).laidOut d.nodes.size) := by
  obtain ⟨rest, hroot⟩ := takeAt?_root (missing n.leaves.size) hn
  have hpass := pass?_eq (missing n.leaves.size) hn (Nat.le_refl _)
  have hlt : d.root < (d.collect (Summary.ofNode n.leaves.size (n.positions[·]?))).size := by
    simpa using d.root_lt
  have hfollow : (d.passed n d.nodes.size).follow = (Analysis.ofNumbering d n).follow := by
    have hall : (d.collect (Summary.ofNode n.leaves.size (n.positions[·]?))).extract 0
        d.nodes.size = d.collect (Summary.ofNode n.leaves.size (n.positions[·]?)) := by
      rw [← d.size_collect (Summary.ofNode n.leaves.size (n.positions[·]?)), Array.extract_size]
    rw [passed, hall]
    rfl
  rw [summary, Array.getElem?_eq_getElem hlt, Option.getD_some] at hroot
  unfold Visit.analyze?
  show ((n.visit d.nodes.size).pass? (missing n.leaves.size) d d.nodes.size).bind _ = _
  rw [hpass, Option.bind_some]
  show (takeAt? (missing n.leaves.size) (d.passed n d.nodes.size).summaries d.root).bind _ = _
  rw [hroot, Option.bind_some, hfollow]
  rfl

/-- Walk and pass find every entry that they look up, and every summary that they take. Their
outcome is that of the analysis, whatever was to stand in for a missing summary. -/
theorem analyze?_eq (missing : Nat → Option Summary) (d : Declaration) (limits : Limits) :
    d.analyze? missing limits =
      some ((Analysis.ofDeclaration d limits).map (·.laidOut d.nodes.size)) := by
  unfold analyze? Analysis.ofDeclaration
  rw [visit?_eq]
  cases hn : Numbering.ofTree limits d.tree with
  | error e => rfl
  | ok n =>
    have hvisit := analyze?_visit missing hn
    have hleaves : (n.visit d.nodes.size).leaves = n.leaves := rfl
    cases hcheck : limits.check .positions n.leaves.size with
    | error e => simp [Except.map, bind, Except.bind, hleaves, hcheck]
    | ok u => simp [Except.map, bind, Except.bind, pure, Except.pure, hleaves, hcheck, hvisit]

end Declaration

end ElementContent
