import ElementContent.Content.Draft
import ElementContent.Occurrence
import Std.Data.HashMap
import Std.Data.HashSet

/-!
# Spelling out occurrence bounds

A particle that occurs between `min` and `max` times is spelled out with `?`, `*`, `+` and copies of
its subtree. With bounds 2 and 4, for instance, `a` becomes `a, a, (a, a?)?`: the copies that may be
missing are nested, so two of them never compete for a child.

The particle itself stands for its first occurrence, and its copies are added behind the nodes of
the draft. Copies belong to the particles of what they are copies of; a leaf that takes a child and
belongs to none is given a particle before it is copied, labelled with its term.

The number of leaves in all copies is compared with a limit before anything is changed. Nodes may be
shared, so a few nodes may have more leaves than there are 64-bit words. The product of copies and
leaves is not compared if it is no such word: the operation stops there, without an error. The
leaves below one node are counted without a bound; counted one by one, `2 ^ 64` of them are never
reached.

- `Draft.Subtree`: the nodes below a node, with the order in which they are copied.
- `Draft.Failure`: how an operation on a draft may end without an id.
- `Draft.checkExpansion`: lets bounds pass that can be spelled out.
- `Draft.repeated`: the node for a particle under occurrence bounds.
-/

namespace ElementContent

namespace Draft

/-! ## Subtrees -/

/-- Goes down from the node below `bound` and gathers those that are marked, marking their parts.
The result is ascending, and it is complete because the parts of a node stand before it. -/
def gather (nodes : Array (Node Nat)) : Nat → Std.HashSet Nat → List Nat → List Nat
  | 0, _, found => found
  | i + 1, marked, found =>
    if marked.contains i then
      let parts := match nodes[i]? with
        | some n => n.children
        | none => []
      gather nodes i (marked.insertMany parts) (i :: found)
    else gather nodes i marked found

/-- The nodes below a node, itself included. -/
structure Subtree where
  /-- The ids of the nodes, ascending; the topmost node is the last. -/
  members : List Nat
  /-- The place of each id among them. -/
  rank : Std.HashMap Nat Nat

/-- The nodes below a node. -/
def subtree (d : Draft) (node : Nat) : Subtree :=
  let members := gather d.nodes (node + 1) {node} []
  ⟨members, .ofList members.zipIdx⟩

/-- Gives a particle to a leaf that takes a child and has none. -/
def tagLeaf (d : Draft) (i : Nat) : Draft :=
  match d.nodes[i]? with
  | some (.leaf term none) =>
    if term.takesChild then
      { d with
        nodes := d.nodes.setIfInBounds i (.leaf term (some d.labels.size))
        labels := d.labels.push (term.render none) }
    else d
  | _ => d

/-- Gives particles to the leaves of a subtree that take a child and have none. -/
def tag (d : Draft) (t : Subtree) : Draft :=
  t.members.foldl tagLeaf d

/-- Adds a copy of one node; the copies of its parts stand at their rank from `base` on. -/
def copyNode (t : Subtree) (base : Nat) (d : Draft) (i : Nat) : Draft :=
  match d.nodes[i]? with
  | some n => (d.add (n.map fun c => base + t.rank.getD c 0)).2
  | none => d

/-- Adds a copy of a subtree; the copy of the topmost node comes last. -/
def copy (d : Draft) (t : Subtree) : Nat × Draft :=
  let base := d.nodes.size
  (base + t.members.length - 1, t.members.foldl (copyNode t base) d)

/-- Adds `n` copies of a subtree, one after the other, to those added before. -/
def copies (t : Subtree) : Nat → Array Nat → Draft → Array Nat × Draft
  | 0, ids, d => (ids, d)
  | n + 1, ids, d =>
    let (id, d) := d.copy t
    copies t n (ids.push id) d

/-- Adds `n` nested optional copies around `inner`: each holds a copy and, if there is something
inside, that after it. -/
def optionals (t : Subtree) : Nat → Option Nat → Draft → Option Nat × Draft
  | 0, inner, d => (inner, d)
  | n + 1, inner, d =>
    let (id, d) := d.copy t
    let (body, d) := match inner with
      | some inner => d.group .sequence id inner
      | none => (id, d)
    let (outer, d) := d.quantify .optional body
    optionals t n (some outer) d

/-! ## Occurrence bounds -/

/-- The number of leaves below each node, counted as often as they are met. -/
def leafCounts (d : Draft) : Array Nat :=
  d.nodes.foldl (fun counts n => counts.push
    (match n.map (fun c => counts.getD c 0) with
      | .leaf _ _ => 1
      | .group _ left right => left + right
      | .quantified _ body => body)) #[]

/-- The number of leaves below a node. -/
def leafCount (d : Draft) (node : Nat) : Nat :=
  d.leafCounts.getD node 0

/-- The number of leaves in all copies that the bounds ask for. -/
def expansionSize (d : Draft) (node : Nat) (o : Occurrence) : Nat :=
  o.copies * d.leafCount node

/-- Spells out bounds that need copies: `min` is at least 2, or the greatest number is. -/
def spellOut (d : Draft) (node min : Nat) (max : Option Nat) : Nat × Draft :=
  let t := d.subtree node
  let d := d.tag t
  match max with
  | none =>
    let (ids, d) := copies t (min - 2) #[node] d
    let (last, d) := d.copy t
    let (loop, d) := d.quantify .plus last
    d.groupOf .sequence (ids.push loop).toList
  | some max =>
    if min = 0 then
      let (inner, d) := optionals t (max - 1) none d
      let (body, d) := match inner with
        | some inner => d.group .sequence node inner
        | none => (node, d)
      d.quantify .optional body
    else
      let (ids, d) := copies t (min - 1) #[node] d
      let (tail, d) := optionals t (max - min) none d
      d.groupOf .sequence (ids.toList ++ tail.toList)

/-- Spells out consistent bounds. -/
def expand (d : Draft) (node : Nat) (o : Occurrence) : Nat × Draft :=
  match o.min.toNat, o.max.map UInt32.toNat with
  | _, some 0 => d.leaf .empty
  | 1, some 1 => (node, d)
  | 0, some 1 => d.quantify .optional node
  | 0, none => d.quantify .star node
  | 1, none => d.quantify .plus node
  | min, max => d.spellOut node min max

/-- How an operation on a draft may end without an id. -/
inductive Failure where
  /-- An error is reported. -/
  | reported (e : Error)
  /-- A number that is needed is no 64-bit word, and the program stops without an error. -/
  | overflow
  deriving DecidableEq, Repr

/-- Lets occurrence bounds pass that can be spelled out. Bounds that no number meets are reported
first, then an expansion that is too large; its size has to be a word to be compared at all. -/
def checkExpansion (d : Draft) (node : Nat) (o : Occurrence) : Except Failure Unit :=
  if o.isConsistent then
    if d.expansionSize node o < UInt64.size then
      (d.limits.check .copies (d.expansionSize node o)).mapError .reported
    else .error .overflow
  else .error (.reported (.content (.invertedBounds node o.min o.max)))

/-- The node for a particle under occurrence bounds. -/
def repeated (d : Draft) (node : Nat) (o : Occurrence) : Except Failure (Nat × Draft) := do
  d.checkExpansion node o
  return d.expand node o

variable {d : Draft} {node : Nat} {o : Occurrence} {out : Nat × Draft}

theorem checkExpansion_eq_ok_iff : d.checkExpansion node o = .ok () ↔ o.isConsistent = true ∧
    d.expansionSize node o < UInt64.size ∧ d.expansionSize node o ≤ d.limits.copies := by
  unfold checkExpansion
  split
  · next ho =>
    split
    · next hlt =>
      have hcheck : d.limits.check .copies (d.expansionSize node o) = .ok () ↔
          d.expansionSize node o ≤ d.limits.copies := Limits.check_eq_ok_iff
      simp only [ho, hlt, true_and]
      refine Iff.trans ?_ hcheck
      cases d.limits.check .copies (d.expansionSize node o) with
      | ok u => exact iff_of_true rfl rfl
      | error e => exact iff_of_false (by rintro ⟨⟩) (by rintro ⟨⟩)
    · next hlt => exact iff_of_false (by rintro ⟨⟩) fun h => hlt h.2.1
  · next ho => exact iff_of_false (by rintro ⟨⟩) fun h => ho h.1

/-- The program stops exactly where the size of an expansion is no word. -/
theorem checkExpansion_eq_overflow_iff : d.checkExpansion node o = .error .overflow ↔
    o.isConsistent = true ∧ UInt64.size ≤ d.expansionSize node o := by
  unfold checkExpansion
  split
  · next ho =>
    split
    · next hlt =>
      refine iff_of_false (fun h => ?_) fun h => Nat.not_lt.2 h.2 hlt
      cases hcheck : d.limits.check .copies (d.expansionSize node o) with
      | ok u => rw [hcheck] at h; cases h
      | error e => rw [hcheck] at h; cases h
    · next hlt => exact iff_of_true rfl ⟨ho, Nat.not_lt.1 hlt⟩
  · next ho => exact iff_of_false (by rintro ⟨⟩) fun h => ho h.1

theorem repeated_eq_ok_iff : d.repeated node o = .ok out ↔ o.isConsistent = true ∧
    d.expansionSize node o < UInt64.size ∧ d.expansionSize node o ≤ d.limits.copies ∧
      d.expand node o = out := by
  have hcheck : d.checkExpansion node o = .ok () ↔ _ := checkExpansion_eq_ok_iff
  unfold repeated
  cases hout : d.checkExpansion node o with
  | ok u =>
    obtain ⟨ho, hlt, hle⟩ := hcheck.1 hout
    exact ⟨fun h => ⟨ho, hlt, hle, Except.ok.inj h⟩, fun h => congrArg Except.ok h.2.2.2⟩
  | error e =>
    refine iff_of_false (by rintro ⟨⟩) fun ⟨ho, hlt, hle, _⟩ => ?_
    cases hout.symm.trans (hcheck.2 ⟨ho, hlt, hle⟩)

theorem repeated_eq_error_iff {e : Failure} : d.repeated node o = .error e ↔
    d.checkExpansion node o = .error e := by
  unfold repeated
  cases d.checkExpansion node o with
  | ok u => exact iff_of_false (by rintro ⟨⟩) (by rintro ⟨⟩)
  | error e' =>
    have hinj : ∀ {α : Type}, (Except.error e' : Except Failure α) = .error e ↔ e' = e := by simp
    exact hinj.trans hinj.symm

end Draft

/-! ## Commands -/

/-- One operation on a draft; operands are ids that earlier operations gave. -/
inductive Command where
  /-- A leaf that belongs to no particle. -/
  | leaf (term : Term)
  /-- A particle with its leaf. -/
  | particle (label : String) (term : Term)
  /-- A group of two. -/
  | group (kind : GroupKind) (left right : Nat)
  /-- A quantifier over a body. -/
  | quantified (quantifier : Quantifier) (body : Nat)
  /-- A group of any number of operands. -/
  | groupOf (kind : GroupKind) (items : List Nat)
  /-- A particle under occurrence bounds. -/
  | repeated (node : Nat) (occurrence : Occurrence)

/-- The ids that a command names. -/
def Command.operands : Command → List Nat
  | leaf _ | particle _ _ => []
  | group _ left right => [left, right]
  | quantified _ body => [body]
  | groupOf _ items => items
  | repeated node _ => [node]

/-- Carries out a command. One that fails gives no draft, so the draft before it stays in use. -/
def Draft.perform (d : Draft) : Command → Except Draft.Failure (Nat × Draft)
  | .leaf term => .ok (d.leaf term)
  | .particle label term => .ok (d.particle label term)
  | .group kind left right => .ok (d.group kind left right)
  | .quantified quantifier body => .ok (d.quantify quantifier body)
  | .groupOf kind items => .ok (d.groupOf kind items)
  | .repeated node occurrence => d.repeated node occurrence

end ElementContent
