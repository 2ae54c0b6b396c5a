import ElementContent.Content.Node

/-!
# Declarations

A *declaration* is the content declared for one element type. Its nodes stand in an array and name
their parts by index; every part stands before the node it belongs to, so that a pass from left to
right meets the parts of a node first. Nodes may share parts, and nodes may be left over; only a
content whose nodes below the root form a tree passes the position analysis.

- `Declaration.ofParts`: accepts nodes, a root and labels if they are in order.
- `Declaration.collect`: computes a value for every node from the values of its parts, left to
  right; `Declaration.fold` is the value of the root.
- `Declaration.empty`, `Declaration.any`, `Declaration.mixed`: the contents with a name of their
  own.
-/

namespace ElementContent

/-- The content of one element type. -/
structure Declaration where
  /-- The nodes; a part is named by its index. -/
  nodes : Array (Node Nat)
  /-- The index of the node that stands for the whole content. -/
  root : Nat
  /-- The labels of the declared particles. -/
  labels : Array String
  /-- The root is one of the nodes. -/
  root_lt : root < nodes.size
  /-- The parts of a node stand before it. -/
  earlier : ∀ (i : Nat) (h : i < nodes.size), ∀ c ∈ nodes[i].children, c < i

namespace Declaration

/-! ## Building from parts -/

/-- What is wrong with the node at an index: its parts are looked at left to right, then its
particle. A leaf may name any particle if no label is declared. -/
def nodeFault (labels : Nat) (i : Nat) (n : Node Nat) : Option ContentFault :=
  match n.children.find? (fun c => decide (i ≤ c)) with
  | some c => some (.childNotEarlier i c)
  | none =>
    match n with
    | .leaf _ (some p) => if 0 < labels ∧ labels ≤ p then some (.undeclaredParticle i p) else none
    | _ => none

/-- The first fault among the nodes. -/
def firstFault (nodes : Array (Node Nat)) (labels : Nat) : Option ContentFault :=
  nodes.toList.zipIdx.findSome? fun (n, i) => nodeFault labels i n

theorem earlier_of_nodeFault {labels i : Nat} {n : Node Nat}
    (h : nodeFault labels i n = none) : ∀ c ∈ n.children, c < i := by
  intro c hc
  unfold nodeFault at h
  split at h
  · simp at h
  · next hnone => simpa using List.find?_eq_none.1 hnone c hc

theorem earlier_of_firstFault {nodes : Array (Node Nat)} {labels : Nat}
    (h : firstFault nodes labels = none) (i : Nat) (hi : i < nodes.size) :
    ∀ c ∈ nodes[i].children, c < i := by
  refine @earlier_of_nodeFault labels i nodes[i] ?_
  have hmem : (nodes[i], i) ∈ nodes.toList.zipIdx := by
    rw [List.mk_mem_zipIdx_iff_getElem?]
    simp [hi]
  exact List.findSome?_eq_none_iff.1 h _ hmem

/-- The declaration with these nodes, if the root is one of them and no node is at fault. -/
def ofParts (nodes : Array (Node Nat)) (root : Nat) (labels : Array String) :
    Except Error Declaration :=
  if hr : root < nodes.size then
    match hf : firstFault nodes labels.size with
    | some fault => .error (.content fault)
    | none => .ok ⟨nodes, root, labels, hr, earlier_of_firstFault hf⟩
  else .error (.content (.rootOutOfRange root))

/-! ## Passing over the nodes -/

variable {α : Type}

/-- The node at an index with its parts replaced by their values, which are known up to the index.
-/
def resolve (d : Declaration) (values : Array α) (i : Nat) (h : i < d.nodes.size)
    (hv : i ≤ values.size) : Node α :=
  d.nodes[i].mapWith fun c hc =>
    have : c < values.size := Nat.lt_of_lt_of_le (d.earlier i h c hc) hv
    values[c]

/-- Computes the values of the nodes from `values.size` on, after those before have been computed.
-/
def collectFrom (d : Declaration) (value : Nat → Node α → α) (values : Array α) : Array α :=
  if h : values.size < d.nodes.size then
    let n := d.resolve values values.size h (Nat.le_refl _)
    collectFrom d value (values.push (value values.size n))
  else values
termination_by d.nodes.size - values.size
decreasing_by
  rw [Array.size_push]
  omega

/-- The value of every node, computed from its index and from the values of its parts. -/
def collect (d : Declaration) (value : Nat → Node α → α) : Array α :=
  d.collectFrom value #[]

theorem size_collectFrom (d : Declaration) (value : Nat → Node α → α) (values : Array α)
    (h : values.size ≤ d.nodes.size) : (d.collectFrom value values).size = d.nodes.size := by
  fun_induction collectFrom d value values with
  | case1 values hlt n ih => exact ih (by rw [Array.size_push]; omega)
  | case2 values hge => omega

@[simp] theorem size_collect (d : Declaration) (value : Nat → Node α → α) :
    (d.collect value).size = d.nodes.size :=
  d.size_collectFrom value #[] (Nat.zero_le _)

/-- The value of the root. -/
def fold (d : Declaration) (value : Nat → Node α → α) : α :=
  have : d.root < (d.collect value).size := by simpa using d.root_lt
  (d.collect value)[d.root]

/-- The label of a particle; one that is not declared goes by its number. -/
def label (d : Declaration) (p : Nat) : String :=
  match d.labels[p]? with
  | some label => label
  | none => s!"particle {p}"

/-! ## Contents with a name -/

/-- No children at all. -/
def empty : Declaration where
  nodes := #[.leaf .empty none]
  root := 0
  labels := #[]
  root_lt := by decide
  earlier := by
    intro i h c hc
    obtain rfl : i = 0 := by simpa using h
    simp [Node.children] at hc

/-- Any children. -/
def any : Declaration where
  nodes := #[.leaf (.ofSymbol .wildcard) none, .quantified .star 0]
  root := 1
  labels := #[]
  root_lt := by decide
  earlier := by
    intro i h c hc
    match i, h with
    | 0, _ => simp [Node.children] at hc
    | 1, _ => simp_all [Node.children]

/-- The leaves of a mixed content: text, then an element for each symbol. -/
def mixedLeaves (alternatives : List Symbol) : List (Node Nat) :=
  .leaf .text none :: alternatives.map fun s => .leaf (.ofSymbol s) none

/-- The choices that join the leaves of a mixed content with `n` symbols: each joins what has been
joined so far to the next leaf. -/
def mixedChoices (n : Nat) : List (Node Nat) :=
  (List.range n).map fun i => .group .choice (if i = 0 then 0 else n + i) (i + 1)

/-- The nodes of a mixed content. -/
def mixedNodes (alternatives : List Symbol) : List (Node Nat) :=
  mixedLeaves alternatives ++ mixedChoices alternatives.length ++
    if alternatives.isEmpty then [] else [Node.quantified .star (2 * alternatives.length)]

theorem length_mixedNodes (s : Symbol) (ss : List Symbol) :
    (mixedNodes (s :: ss)).length = 2 * (s :: ss).length + 2 := by
  simp [mixedNodes, mixedLeaves, mixedChoices]
  omega

theorem earlier_mixedNodes (alternatives : List Symbol) (i : Nat)
    (h : i < (mixedNodes alternatives).length) :
    ∀ c ∈ (mixedNodes alternatives)[i].children, c < i := by
  intro c hc
  have hl : (mixedLeaves alternatives).length = alternatives.length + 1 := by simp [mixedLeaves]
  have hm : (mixedChoices alternatives.length).length = alternatives.length := by
    simp [mixedChoices]
  unfold mixedNodes at h hc
  by_cases h1 : i < alternatives.length + 1
  · rw [List.getElem_append_left (by simp [hl]; omega), List.getElem_append_left (by omega)] at hc
    cases i <;> simp [mixedLeaves, Node.children] at hc
  · by_cases h2 : i < 2 * alternatives.length + 1
    · rw [List.getElem_append_left (by simp [hl, hm]; omega),
        List.getElem_append_right (by omega)] at hc
      simp only [mixedChoices, hl, List.getElem_map, List.getElem_range, Node.children,
        List.mem_cons, List.not_mem_nil, or_false] at hc
      rcases hc with rfl | rfl
      · split <;> omega
      · omega
    · rw [List.getElem_append_right (by simp [hl, hm]; omega)] at hc
      cases alternatives with
      | nil =>
        simp [mixedLeaves, mixedChoices] at h
        omega
      | cons s ss =>
        simp only [List.isEmpty_cons, Bool.false_eq_true, if_false, List.getElem_singleton,
          Node.children, List.mem_singleton] at hc
        omega

/-- Text among any number of the elements, in any order; text alone if there are none. -/
def mixed (alternatives : List Symbol) : Declaration where
  nodes := (mixedNodes alternatives).toArray
  root := if alternatives.isEmpty then 0 else 2 * alternatives.length + 1
  labels := #[]
  root_lt := by
    cases alternatives with
    | nil => simp [mixedNodes, mixedLeaves]
    | cons s ss => simp [length_mixedNodes]
  earlier := fun i h => by
    simpa using earlier_mixedNodes alternatives i (by simpa using h)

end Declaration

end ElementContent
