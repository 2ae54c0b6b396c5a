import ElementContent.Proofs.Content.Lookup

/-!
# Where the leaves of a draft come from

Beside a draft one may keep a ledger of origins. A leaf that a command adds is its own origin. When
a subtree is copied, the table of the copies tells which node is a copy of which, and a copy comes
from where its original comes from, so copies of copies have the origin of the first. What is put
in between has none: groups, quantifiers and leaves for nothing. The draft does not look at its
ledger, so a ledger can be kept whatever commands are carried out, and no two can be kept of the
same commands.

- `Ledger.copyNext`: copies a node and reads off the table where the origin is to be entered.
- `Ledger.carryOut`: a command, with the node and the bounds that it names.
- `Ledger.forget_carryOut`: without the ledger, this is the command on the draft.
- `Draft.Recorded`: commands have led to the draft and to its ledger.
- `Draft.Reached.exists_recorded`: commands that lead to a draft lead to a ledger of it.
-/

namespace ElementContent

/-- A draft, and entries for its leaves, the last one first: each with the leaf of a command that it
is or is a copy of. -/
structure Ledger where
  draft : Draft
  origins : List (Nat × Nat)

namespace Ledger

/-- Enters a copy, which comes from where its original comes from. -/
def enterCopy (origins : List (Nat × Nat)) (original copy : Nat) : List (Nat × Nat) :=
  match origins.lookup original with
  | some origin => (copy, origin) :: origins
  | none => origins

/-- Copies one node with the copies that the table has for its parts, and enters the origin of what
the table then has for the node itself. -/
def copyNext (state : Std.HashMap Nat Nat × Ledger) (i : Nat) :
    Option (Std.HashMap Nat Nat × Ledger) := do
  let (table, d) ← Draft.copyNext (state.1, state.2.draft) i
  let copy ← table[i]?
  return (table, ⟨d, enterCopy state.2.origins i copy⟩)

/-- Copies the nodes below a node, in ascending order. -/
def copyByTable (l : Ledger) (node : Nat) : Option (Nat × Ledger) := do
  let (table, l) ← (l.draft.subtree node).members.foldlM copyNext (∅, l)
  let id ← table[node]?
  return (id, l)

/-- An operation on the draft in which nothing is copied. -/
def edit {α : Type} (l : Ledger) (f : Draft → α × Draft) : α × Ledger :=
  ((f l.draft).1, ⟨(f l.draft).2, l.origins⟩)

/-- Adds `n` copies, one after the other, to those added before. -/
def copies (node : Nat) : Nat → Array Nat → Ledger → Option (Array Nat × Ledger)
  | 0, ids, l => some (ids, l)
  | n + 1, ids, l => do
    let (id, l) ← l.copyByTable node
    copies node n (ids.push id) l

/-- Puts a copy before what is inside, if there is something, and makes both optional. -/
def optionalOver (id : Nat) (inner : Option Nat) (d : Draft) : Nat × Draft :=
  let (body, d) := Draft.groupFrom .sequence id inner.toList d
  d.quantify .optional body

/-- Adds `n` nested optional copies around `inner`. -/
def optionals (node : Nat) : Nat → Option Nat → Ledger → Option (Option Nat × Ledger)
  | 0, inner, l => some (inner, l)
  | n + 1, inner, l => do
    let (id, l) ← l.copyByTable node
    let (outer, l) := l.edit (optionalOver id inner)
    optionals node n (some outer) l

/-- Repeats the last of several ids and puts all of them in a sequence. -/
def loopLast (ids : Array Nat) (last : Nat) (d : Draft) : Nat × Draft :=
  let (loop, d) := d.quantify .plus last
  d.groupOf .sequence (ids.pop.push loop).toList

/-- Spells out bounds that need copies. -/
def spellOut (l : Ledger) (node min : Nat) (max : Option Nat) : Option (Nat × Ledger) := do
  match max with
  | none =>
    let (ids, l) ← copies node (min - 1) #[node] l
    let last ← ids.back?
    return l.edit (loopLast ids last)
  | some max =>
    if min = 0 then
      let (inner, l) ← optionals node (max - 1) none l
      return l.edit (optionalOver node inner)
    else
      let (ids, l) ← copies node (min - 1) #[node] l
      let (tail, l) ← optionals node (max - min) none l
      return l.edit (·.groupOf .sequence (ids.toList ++ tail.toList))

/-- Spells out consistent bounds. -/
def expand (l : Ledger) (node : Nat) (o : Occurrence) : Option (Nat × Ledger) :=
  match o.min.toNat, o.max.map UInt32.toNat with
  | _, some 0 => some (l.edit (·.leaf .empty))
  | 1, some 1 => some (node, l)
  | 0, some 1 => some (l.edit (·.quantify .optional node))
  | 0, none => some (l.edit (·.quantify .star node))
  | 1, none => some (l.edit (·.quantify .plus node))
  | min, max => l.spellOut node min max

/-- A leaf that a command adds is its own origin. -/
def addLeaf (l : Ledger) (f : Draft → Nat × Draft) : Nat × Ledger :=
  let (id, d) := f l.draft
  (id, ⟨d, (id, id) :: l.origins⟩)

/-- The outcome of an operation that gives an id. -/
def gives (out : Nat × Ledger) : Option (Except Draft.Failure Nat × Ledger) :=
  some (.ok out.1, out.2)

/-- Carries out a command. The outcome is an id or a failure, with the ledger as it then is; there
is none if an entry is looked up that is missing. -/
def carryOut (l : Ledger) : Command → Option (Except Draft.Failure Nat × Ledger)
  | .leaf term => gives (l.addLeaf (·.leaf term))
  | .particle label term => gives (l.addLeaf (·.particle label term))
  | .group kind left right => gives (l.edit (·.group kind left right))
  | .quantified quantifier body => gives (l.edit (·.quantify quantifier body))
  | .groupOf kind items => gives (l.edit (·.groupOf kind items))
  | .repeated node o =>
    match l.draft.checkExpansion node o with
    | .error e => some (.error e, l)
    | .ok () => do gives (← l.expand node o)

/-! ## What is left without the ledger -/

section Forget

variable {α β : Type} {l : Ledger}

/-- The outcome without the ledger. -/
def forget (out : Option (α × Ledger)) : Option (α × Draft) :=
  out.map fun x => (x.1, x.2.draft)

/-- One operation after another. -/
theorem forget_bind {out : Option (α × Ledger)} {next : α × Ledger → Option (β × Ledger)}
    {out' : Option (α × Draft)} {next' : α × Draft → Option (β × Draft)}
    (hout : forget out = out') (hnext : ∀ a l, forget (next (a, l)) = next' (a, l.draft)) :
    forget (out >>= next) = out' >>= next' := by
  subst hout
  cases out with
  | none => rfl
  | some x => exact hnext x.1 x.2

theorem forget_copyNext (table : Std.HashMap Nat Nat) (l : Ledger) (i : Nat) :
    forget (copyNext (table, l) i) = Draft.copyNext (table, l.draft) i := by
  unfold copyNext Draft.copyNext
  dsimp only
  cases (l.draft.tagLeaf i).nodes[i]? with
  | none => rfl
  | some n =>
    cases hcopy : n.lookUp table with
    | none => simp [hcopy, forget]
    | some copied =>
      -- the entry for the node has just been made
      simp [hcopy, forget]

theorem forget_foldlM (members : List Nat) (table : Std.HashMap Nat Nat) (l : Ledger) :
    forget (members.foldlM copyNext (table, l)) =
      members.foldlM Draft.copyNext (table, l.draft) := by
  induction members generalizing table l with
  | nil => rfl
  | cons i members ih =>
    rw [List.foldlM_cons, List.foldlM_cons]
    exact forget_bind (forget_copyNext table l i) fun table l => ih table l

theorem forget_copyByTable (l : Ledger) (node : Nat) :
    forget (l.copyByTable node) = l.draft.copyByTable node := by
  refine forget_bind (forget_foldlM _ ∅ l) fun table l => ?_
  dsimp only
  cases table[node]? <;> rfl

theorem forget_copies (node n : Nat) (ids : Array Nat) (l : Ledger) :
    forget (copies node n ids l) = Draft.copiesByTable node n ids l.draft := by
  induction n generalizing ids l with
  | zero => rfl
  | succ n ih => exact forget_bind (forget_copyByTable l node) fun id l => ih (ids.push id) l

theorem forget_optionals (node n : Nat) (inner : Option Nat) (l : Ledger) :
    forget (optionals node n inner l) = Draft.optionalsByTable node n inner l.draft := by
  induction n generalizing inner l with
  | zero => rfl
  | succ n ih => exact forget_bind (forget_copyByTable l node) fun id l => ih _ _

theorem forget_spellOut (l : Ledger) (node min : Nat) (max : Option Nat) :
    forget (l.spellOut node min max) = l.draft.spellOutByTable node min max := by
  unfold spellOut Draft.spellOutByTable
  cases max with
  | none =>
    refine forget_bind (forget_copies node _ _ l) fun ids l => ?_
    dsimp only
    cases ids.back? <;> rfl
  | some max =>
    dsimp only
    split
    · exact forget_bind (forget_optionals node _ _ l) fun inner l => rfl
    · refine forget_bind (forget_copies node _ _ l) fun ids l => ?_
      exact forget_bind (forget_optionals node _ _ l) fun tail l => rfl

theorem forget_expand (l : Ledger) (node : Nat) (o : Occurrence) :
    forget (l.expand node o) = l.draft.expandByTable node o := by
  unfold expand Draft.expandByTable
  generalize o.min.toNat = min
  generalize o.max.map UInt32.toNat = max
  match max, min with
  | none, 0 => rfl
  | none, 1 => rfl
  | none, k + 2 => exact forget_spellOut l node (k + 2) none
  | some 0, _ => rfl
  | some 1, 0 => rfl
  | some 1, 1 => rfl
  | some 1, k + 2 => exact forget_spellOut l node (k + 2) (some 1)
  | some (m + 2), k => exact forget_spellOut l node k (some (m + 2))

/-- Without the ledger, a command is carried out on the draft. -/
theorem forget_carryOut (l : Ledger) (c : Command) :
    forget (l.carryOut c) = l.draft.carryOut c := by
  cases c with
  | leaf | particle | group | quantified | groupOf => rfl
  | repeated node o =>
    simp only [carryOut, Draft.carryOut]
    cases l.draft.checkExpansion node o with
    | error e => rfl
    | ok u => exact forget_bind (forget_expand l node o) fun i l => rfl

end Forget

end Ledger

namespace Draft

/-- Commands have led to the draft, to the ids and to the origins of the leaves. -/
inductive Recorded : Draft → List Nat → List (Nat × Nat) → Prop where
  /-- No command yet. -/
  | empty (limits : Limits) : Recorded (.empty limits) [] []
  /-- Other limits. -/
  | withLimits {d : Draft} {ids : List Nat} {origins : List (Nat × Nat)}
    (h : Recorded d ids origins) (limits : Limits) :
    Recorded { d with limits := limits } ids origins
  /-- One command more. -/
  | perform {d d' : Draft} {ids : List Nat} {origins origins' : List (Nat × Nat)} {i : Nat}
    (h : Recorded d ids origins) (c : Command) (hc : ∀ operand ∈ c.operands, operand ∈ ids)
    (hout : Ledger.carryOut ⟨d, origins⟩ c = some (.ok i, ⟨d', origins'⟩)) :
    Recorded d' (i :: ids) origins'

/-- A ledger can be kept of every command. -/
theorem exists_carryOut {d d' : Draft} {c : Command} {i : Nat} (hd : d.WellFormed)
    (hc : ∀ operand ∈ c.operands, operand < d.nodes.size) (hok : d.perform c = .ok (i, d'))
    (origins : List (Nat × Nat)) :
    ∃ origins', Ledger.carryOut ⟨d, origins⟩ c = some (.ok i, ⟨d', origins'⟩) := by
  have hforget := Ledger.forget_carryOut ⟨d, origins⟩ c
  rw [carryOut_eq hd hc, hok] at hforget
  obtain ⟨⟨result, l⟩, hout, heq⟩ := Option.map_eq_some_iff.1 hforget
  obtain ⟨rfl, rfl⟩ := Prod.mk.inj heq
  exact ⟨l.origins, hout⟩

/-- Commands that lead to a draft lead to a ledger of it. -/
theorem Reached.exists_recorded {d : Draft} {ids : List Nat} (h : d.Reached ids) :
    ∃ origins, d.Recorded ids origins := by
  induction h with
  | empty limits => exact ⟨[], .empty limits⟩
  | withLimits h limits ih =>
    obtain ⟨origins, hrecorded⟩ := ih
    exact ⟨origins, hrecorded.withLimits limits⟩
  | perform h c hc hok ih =>
    obtain ⟨origins, hrecorded⟩ := ih
    obtain ⟨origins', hout⟩ :=
      exists_carryOut h.wellFormed (fun j hj => h.lt_size (hc j hj)) hok origins
    exact ⟨origins', hrecorded.perform c hc hout⟩

end Draft

end ElementContent
