import ElementContent.Proofs.Content.Ledger

/-!
# What a ledger says of the particles

A leaf that a command adds may belong to no particle. It is given one just before it is copied, and
the copies take it over. So the leaves of one origin are alike, particle included, those of
different origins have no particle in common, and a leaf that still has none is alone with its
origin. This is kept by all that commands do: by a copy, whose origin is that of what it is a copy
of, and by the groups and quantifiers that are put in between.

- `Ledger.Accounted`: the ledger accounts for the particles of its draft.
- `Ledger.Accounted.add`: one node more; `Ledger.Accounted.copyNext`: one copy.
- `Ledger.CopiesOrigins`: what the table of a pass says of the origins;
  `Ledger.Accounted.copiesOrigins` is about any node of an accounted draft.
- `Ledger.Accounted.carryOut`: one command, and `Draft.Recorded.accounted` all commands so far.
-/

namespace ElementContent

namespace Ledger

/-- The ledger accounts for the particles of the draft. A leaf that takes a child or has a particle
has an origin, and what has an origin is a leaf like it. Particles are declared and belong to one
origin each; a leaf that takes a child and has no particle has no copies. -/
structure Accounted (l : Ledger) : Prop where
  declared : ∀ {i : Nat} {n : Node Nat} {id : Nat}, l.draft.nodes[i]? = some n →
    n.particle? = some id → id < l.draft.labels.size
  known : ∀ {i : Nat} {n : Node Nat}, l.draft.nodes[i]? = some n →
    n.takesChild = true ∨ n.particle? ≠ none → ∃ r, l.origins.lookup i = some r
  alike : ∀ {i r : Nat}, l.origins.lookup i = some r → l.origins.lookup r = some r ∧
    ∃ term particle, l.draft.nodes[r]? = some (.leaf term particle) ∧
      l.draft.nodes[i]? = some (.leaf term particle)
  apart : ∀ {i j : Nat} {n n' : Node Nat} {id : Nat}, l.draft.nodes[i]? = some n →
    l.draft.nodes[j]? = some n' → n.particle? = some id → n'.particle? = some id →
    l.origins.lookup i = l.origins.lookup j
  alone : ∀ {i j : Nat} {n : Node Nat}, l.draft.nodes[i]? = some n → n.isLoose = true →
    l.origins.lookup j = l.origins.lookup i → j = i

/-- A pass over the nodes below a node copies each of them, and what the table has for it at the end
comes from where it comes from itself. -/
def CopiesOrigins (l : Ledger) (node : Nat) : Prop :=
  ∃ table l', (l.draft.subtree node).members.foldlM copyNext (∅, l) = some (table, l') ∧
    ∀ i ∈ (l.draft.subtree node).members,
      ∃ c, table[i]? = some c ∧ l'.origins.lookup c = l.origins.lookup i

theorem lookup_cons (i origin : Nat) (origins : List (Nat × Nat)) (j : Nat) :
    ((i, origin) :: origins).lookup j = if j = i then some origin else origins.lookup j := by
  rw [List.lookup_cons]
  split
  · next h => rw [if_pos (by simpa using h)]
  · next h => rw [if_neg (by simpa using h)]

namespace Accounted

variable {l l' : Ledger} {origins : List (Nat × Nat)} {i : Nat} {n : Node Nat}
  {origin : Option Nat}

/-! ## One node more -/

theorem lt_size (h : l.Accounted) {i r : Nat} (hi : l.origins.lookup i = some r) :
    i < l.draft.nodes.size := by
  obtain ⟨-, term, particle, -, hn⟩ := h.alike hi
  exact (Array.getElem?_eq_some_iff.1 hn).1

/-- What is no node yet has no origin. -/
theorem lookup_size (h : l.Accounted) : l.origins.lookup l.draft.nodes.size = none := by
  cases horigin : l.origins.lookup l.draft.nodes.size with
  | none => rfl
  | some r => exact absurd (h.lt_size horigin) (Nat.lt_irrefl _)

section Add

variable (hentry : ∀ j : Nat, origins.lookup j =
  if j = l.draft.nodes.size then origin else l.origins.lookup j)

include hentry

/-- A node is the new one with its origin, or was there with the origin that it has. -/
theorem new_or_old {m : Node Nat} (hm : (l.draft.add n).2.nodes[i]? = some m) :
    i = l.draft.nodes.size ∧ n = m ∧ origins.lookup i = origin ∨
      l.draft.nodes[i]? = some m ∧ origins.lookup i = l.origins.lookup i := by
  rw [Draft.getElem?_add] at hm
  rw [hentry]
  split at hm
  · next hi => exact .inl ⟨hi, Option.some.inj hm, if_pos hi⟩
  · next hi => exact .inr ⟨hm, if_neg hi⟩

/-- A node is added with its origin: a leaf is its own origin or like its origin, it shares what
particle it has with that origin only, and loose leaves share their origin with no other node. -/
theorem add (h : l.Accounted) (hdeclared : ∀ id, n.particle? = some id → id < l.draft.labels.size)
    (hknown : n.takesChild = true ∨ n.particle? ≠ none → ∃ r, origin = some r)
    (halike : ∀ r, origin = some r → ∃ term particle, n = .leaf term particle ∧
      (r = l.draft.nodes.size ∨ l.origins.lookup r = some r ∧ l.draft.nodes[r]? = some n))
    (hapart : ∀ (i : Nat) (n' : Node Nat) (id : Nat), l.draft.nodes[i]? = some n' →
      n'.particle? = some id → n.particle? = some id → l.origins.lookup i = origin)
    (halone : ∀ i : Nat, l.origins.lookup i = origin → n.isLoose = false ∧
      ∀ n', l.draft.nodes[i]? = some n' → n'.isLoose = false) :
    Accounted ⟨(l.draft.add n).2, origins⟩ := by
  -- what was there keeps its origin and is not the new node
  have hold : ∀ {j r : Nat}, l.origins.lookup j = some r → origins.lookup j = some r ∧
      (l.draft.add n).2.nodes[j]? = l.draft.nodes[j]? := by
    intro j r hj
    have hne := Nat.ne_of_lt (h.lt_size hj)
    rw [hentry, Draft.getElem?_add, if_neg hne, if_neg hne]
    exact ⟨hj, rfl⟩
  constructor
  case declared =>
    intro i m id hm hid
    rcases new_or_old hentry hm with ⟨-, rfl, -⟩ | ⟨hm, -⟩
    · exact hdeclared id hid
    · exact h.declared hm hid
  case known =>
    intro i m hm hleaf
    rcases new_or_old hentry hm with ⟨-, rfl, hi⟩ | ⟨hm, hi⟩
    · obtain ⟨r, hr⟩ := hknown hleaf
      exact ⟨r, hi.trans hr⟩
    · obtain ⟨r, hr⟩ := h.known hm hleaf
      exact ⟨r, hi.trans hr⟩
  case alike =>
    intro i r hi
    have hnew := hentry i
    dsimp only at hi ⊢
    rw [hi] at hnew
    split at hnew
    · next hlast =>
      have hnode : (l.draft.add n).2.nodes[i]? = some n := by
        rw [Draft.getElem?_add, if_pos hlast]
      obtain ⟨term, particle, rfl, rfl | ⟨hr, hn⟩⟩ := halike r hnew.symm
      · obtain rfl := hlast
        exact ⟨hi, term, particle, hnode, hnode⟩
      · exact ⟨(hold hr).1, term, particle, (hold hr).2.trans hn, hnode⟩
    · obtain ⟨hr, term, particle, hn, hn'⟩ := h.alike hnew.symm
      exact ⟨(hold hr).1, term, particle, (hold hr).2.trans hn, (hold hnew.symm).2.trans hn'⟩
  case apart =>
    intro i j m m' id hm hm' hid hid'
    dsimp only
    rcases new_or_old hentry hm with ⟨-, rfl, hi⟩ | ⟨hm, hi⟩ <;>
      rcases new_or_old hentry hm' with ⟨-, rfl, hj⟩ | ⟨hm', hj⟩
    · rw [hi, hj]
    · rw [hi, hj, hapart j m' id hm' hid' hid]
    · rw [hi, hj, hapart i m id hm hid hid']
    · rw [hi, hj, h.apart hm hm' hid hid']
  case alone =>
    intro i j m hm hloose hij
    dsimp only at hij
    rw [hentry] at hij
    rcases new_or_old hentry hm with ⟨hlast, rfl, hi⟩ | ⟨hm, hi⟩
    · rw [hi] at hij
      split at hij
      · next hj => exact hj.trans hlast.symm
      · rw [(halone j hij).1] at hloose
        cases hloose
    · rw [hi] at hij
      split at hij
      · rw [(halone i hij.symm).2 m hm] at hloose
        cases hloose
      · exact h.alone hm hloose hij

end Add

/-- What is not a leaf that takes a child or has a particle needs no origin. -/
theorem add_bare (h : l.Accounted) (hchild : n.takesChild = false)
    (hparticle : n.particle? = none) : Accounted ⟨(l.draft.add n).2, l.origins⟩ := by
  have hentry : ∀ j : Nat, l.origins.lookup j =
      if j = l.draft.nodes.size then none else l.origins.lookup j := by
    intro j
    split
    · next hj => rw [hj, h.lookup_size]
    · rfl
  -- a loose leaf has an origin
  have hloose : ∀ (i : Nat) (n' : Node Nat), l.draft.nodes[i]? = some n' →
      l.origins.lookup i = none → n'.isLoose = false := by
    intro i n' hn' hi
    refine Bool.eq_false_iff.2 fun hloose => ?_
    obtain ⟨r, hr⟩ := h.known hn' (.inl (Node.isLoose_eq_true_iff.1 hloose).1)
    cases hi.symm.trans hr
  refine h.add hentry ?_ ?_ ?_ ?_ ?_
  · simp [hparticle]
  · simp [hchild, hparticle]
  · simp
  · simp [hparticle]
  · intro i hi
    exact ⟨by simp [Node.isLoose, hchild], fun n' hn' => hloose i n' hn' hi⟩

/-- A leaf is its own origin, if the particle that it brings is new. -/
theorem add_leaf {term : Term} {particle : Option Nat} (h : l.Accounted)
    (hdeclared : ∀ id, particle = some id → id < l.draft.labels.size)
    (hnew : ∀ (i : Nat) (n' : Node Nat) (id : Nat), l.draft.nodes[i]? = some n' →
      n'.particle? = some id → particle ≠ some id) :
    Accounted ⟨(l.draft.add (.leaf term particle)).2,
      (l.draft.nodes.size, l.draft.nodes.size) :: l.origins⟩ := by
  have hentry : ∀ j : Nat, ((l.draft.nodes.size, l.draft.nodes.size) :: l.origins).lookup j =
      if j = l.draft.nodes.size then some l.draft.nodes.size else l.origins.lookup j :=
    lookup_cons _ _ _
  -- no node has an origin that is not a node yet
  have hfresh : ∀ i : Nat, l.origins.lookup i ≠ some l.draft.nodes.size := by
    intro i hi
    exact Nat.lt_irrefl _ (h.lt_size (h.alike hi).1)
  refine h.add hentry hdeclared (fun _ => ⟨_, rfl⟩) (fun r hr => ⟨term, particle, rfl, .inl ?_⟩)
    ?_ ?_
  · exact (Option.some.inj hr).symm
  · exact fun i n' id hn' hid hid' => absurd hid' (hnew i n' id hn' hid)
  · exact fun i hi => absurd hi (hfresh i)

/-! ## Copies -/

theorem tagLeaf (h : l.Accounted) (i : Nat) : Accounted ⟨l.draft.tagLeaf i, l.origins⟩ := by
  rcases l.draft.tagLeaf_cases i with ⟨hsame, -⟩ | ⟨term, hterm, hi, -, hlabels, hnode⟩
  · rw [hsame]
    exact h
  have hloose : (Node.leaf term none : Node Nat).isLoose = true :=
    Node.isLoose_eq_true_iff.2 ⟨hterm, rfl⟩
  -- no leaf had the new particle
  have hnew : ∀ {j : Nat} {m : Node Nat}, l.draft.nodes[j]? = some m →
      m.particle? ≠ some l.draft.labels.size :=
    fun hm hid => Nat.lt_irrefl _ (h.declared hm hid)
  constructor
  case declared =>
    intro j m id hm hid
    rw [hnode] at hm
    rw [hlabels]
    split at hm
    · obtain rfl := Option.some.inj hm
      obtain rfl := Option.some.inj hid
      exact Nat.lt_succ_self _
    · exact Nat.lt_succ_of_lt (h.declared hm hid)
  case known =>
    intro j m hm hleaf
    rw [hnode] at hm
    split at hm
    · next hj =>
      obtain rfl := hj
      exact h.known hi (.inl hterm)
    · exact h.known hm hleaf
  case alike =>
    intro j r hj
    obtain ⟨hr, term', particle, hn, hn'⟩ := h.alike hj
    refine ⟨hr, ?_⟩
    -- the leaf is alone with its origin, so both nodes are the leaf or neither is
    have hiff : r = i ↔ j = i := by
      constructor
      · rintro rfl
        exact h.alone hi hloose (hj.trans hr.symm)
      · rintro rfl
        exact h.alone hi hloose (hr.trans hj.symm)
    by_cases hji : j = i
    · exact ⟨term, _, (hnode r).trans (if_pos (hiff.2 hji)), (hnode j).trans (if_pos hji)⟩
    · exact ⟨term', particle, by rw [hnode, if_neg fun hri => hji (hiff.1 hri), hn],
        by rw [hnode, if_neg hji, hn']⟩
  case apart =>
    intro j k m m' id hm hm' hid hid'
    rw [hnode] at hm hm'
    split at hm <;> split at hm'
    · next hj hk => rw [hj, hk]
    · obtain rfl := Option.some.inj hm
      obtain rfl := Option.some.inj hid
      exact absurd hid' (hnew hm')
    · obtain rfl := Option.some.inj hm'
      obtain rfl := Option.some.inj hid'
      exact absurd hid (hnew hm)
    · exact h.apart hm hm' hid hid'
  case alone =>
    intro j k m hm hm' hjk
    rw [hnode] at hm
    split at hm
    · obtain rfl := Option.some.inj hm
      simp [Node.isLoose, Node.particle?] at hm'
    · exact h.alone hm hm' hjk

theorem lookup_enterCopy (h : l.Accounted) (i j : Nat) :
    (enterCopy l.origins i l.draft.nodes.size).lookup j =
      if j = l.draft.nodes.size then l.origins.lookup i else l.origins.lookup j := by
  unfold enterCopy
  cases horigin : l.origins.lookup i with
  | some r =>
    exact lookup_cons _ _ _ j
  | none =>
    dsimp only
    split
    · next hj => rw [hj, h.lookup_size]
    · rfl

/-- A copy comes from where its original comes from. -/
theorem copy (h : l.Accounted) (f : Nat → Nat) (hn : l.draft.nodes[i]? = some n)
    (htagged : n.isLoose = false) :
    Accounted ⟨(l.draft.add (n.map f)).2, enterCopy l.origins i l.draft.nodes.size⟩ := by
  refine h.add (h.lookup_enterCopy i) (fun id hid => h.declared hn (n.particle?_map f ▸ hid))
    (fun hleaf => ?_) (fun r hr => ?_) (fun j n' id hn' hid' hid => ?_)
    fun j hj => ⟨?_, fun n' hn' => ?_⟩
  · rw [Node.takesChild_map, Node.particle?_map] at hleaf
    exact h.known hn hleaf
  · obtain ⟨hroot, term, particle, hnroot, hn'⟩ := h.alike hr
    obtain rfl := Option.some.inj (hn.symm.trans hn')
    exact ⟨term, particle, rfl, .inr ⟨hroot, hnroot⟩⟩
  · exact h.apart hn' hn hid' (n.particle?_map f ▸ hid)
  · rw [Node.isLoose_map, htagged]
  · -- a loose leaf would be the one that is copied
    refine Bool.eq_false_iff.2 fun hloose => ?_
    obtain rfl := h.alone hn' hloose hj.symm
    obtain rfl := Option.some.inj (hn.symm.trans hn')
    rw [htagged] at hloose
    cases hloose

/-- A node is given its particle, its copy comes last, and what the table has for it is entered. -/
theorem exists_of_copyNext {table table' : Std.HashMap Nat Nat}
    (hcopy : Ledger.copyNext (table, l) i = some (table', l')) : ∃ n f,
      (l.draft.tagLeaf i).nodes[i]? = some n ∧ table' = table.insert i l.draft.nodes.size ∧
        l' = ⟨((l.draft.tagLeaf i).add (n.map f)).2,
          enterCopy l.origins i l.draft.nodes.size⟩ := by
  obtain ⟨⟨table₁, d⟩, hdraft, hentered⟩ := Option.bind_eq_some_iff.1 hcopy
  obtain ⟨c, hc, hout⟩ := Option.bind_eq_some_iff.1 hentered
  obtain ⟨rfl, rfl⟩ := Prod.mk.inj (Option.some.inj hout)
  obtain ⟨n, f, hn, rfl, rfl⟩ := Draft.exists_of_copyNext hdraft
  obtain rfl : l.draft.nodes.size = c := by simpa using hc
  exact ⟨n, f, hn, rfl, rfl⟩

/-- Copying a node keeps the account. -/
theorem copyNext {table table' : Std.HashMap Nat Nat} (h : l.Accounted)
    (hcopy : Ledger.copyNext (table, l) i = some (table', l')) : l'.Accounted := by
  obtain ⟨n, f, hn, -, rfl⟩ := exists_of_copyNext hcopy
  have hi : i < (l.draft.tagLeaf i).nodes.size := (Array.getElem?_eq_some_iff.1 hn).1
  rw [Draft.size_tagLeaf] at hi
  obtain ⟨n', hn', hloose⟩ := Draft.exists_tagLeaf (Array.getElem?_eq_getElem hi)
  obtain rfl := Option.some.inj (hn.symm.trans hn')
  have hcopied := (h.tagLeaf i).copy f hn hloose
  rwa [Draft.size_tagLeaf] at hcopied

theorem foldlM_copyNext {members : List Nat} {table table' : Std.HashMap Nat Nat}
    (h : l.Accounted) (hcopy : members.foldlM Ledger.copyNext (table, l) = some (table', l')) :
    l'.Accounted := by
  induction members generalizing table l with
  | nil =>
    obtain ⟨-, rfl⟩ := Prod.mk.inj (Option.some.inj hcopy)
    exact h
  | cons i members ih =>
    rw [List.foldlM_cons] at hcopy
    obtain ⟨⟨table₁, l₁⟩, hnext, hrest⟩ := Option.bind_eq_some_iff.1 hcopy
    exact ih (h.copyNext hnext) hrest

/-- What the table of a pass has for a node comes from where the node comes from. -/
theorem lookup_of_foldlM_copyNext {members : List Nat} {table : Std.HashMap Nat Nat}
    (h : l.Accounted) (hlt : ∀ i ∈ members, i < l.draft.nodes.size)
    (hcopy : members.foldlM Ledger.copyNext (∅, l) = some (table, l')) :
    l.draft.nodes.size ≤ l'.draft.nodes.size ∧
      (∀ j < l.draft.nodes.size, l'.origins.lookup j = l.origins.lookup j) ∧
      ∀ i c : Nat, table[i]? = some c → c < l'.draft.nodes.size ∧
        l'.origins.lookup c = l.origins.lookup i := by
  induction members using List.reverseRecOn generalizing table l' with
  | nil =>
    obtain ⟨rfl, rfl⟩ := Prod.mk.inj (Option.some.inj hcopy)
    exact ⟨Nat.le_refl _, fun _ _ => rfl, fun i c hc => by simp at hc⟩
  | append_singleton members i ih =>
    rw [List.foldlM_append] at hcopy
    obtain ⟨⟨table₁, l₁⟩, hpass, hlast⟩ := Option.bind_eq_some_iff.1 hcopy
    obtain ⟨⟨table₂, l₂⟩, hnext, hout⟩ := Option.bind_eq_some_iff.1 hlast
    obtain ⟨rfl, rfl⟩ := Prod.mk.inj (Option.some.inj hout)
    obtain ⟨hle, hold, htable⟩ := ih (fun j hj => hlt j (List.mem_append_left _ hj)) hpass
    have hi : i < l.draft.nodes.size := hlt i (by simp)
    have hlookup := (h.foldlM_copyNext hpass).lookup_enterCopy i
    obtain ⟨n, f, -, rfl, rfl⟩ := exists_of_copyNext hnext
    rw [Draft.size_add, Draft.size_tagLeaf]
    refine ⟨Nat.le_succ_of_le hle, fun j hj => ?_, fun j c hc => ?_⟩
    · rw [hlookup, if_neg (Nat.ne_of_lt (Nat.lt_of_lt_of_le hj hle)), hold j hj]
    · rw [Std.HashMap.getElem?_insert] at hc
      split at hc
      · next hij =>
        obtain rfl : i = j := by simpa using hij
        obtain rfl := Option.some.inj hc
        rw [hlookup, if_pos rfl, hold i hi]
        exact ⟨Nat.lt_succ_self _, rfl⟩
      · obtain ⟨hlast, horigin⟩ := htable j c hc
        rw [hlookup, if_neg (Nat.ne_of_lt hlast), horigin]
        exact ⟨Nat.lt_succ_of_lt hlast, rfl⟩

/-- All nodes below a node are copied in one pass, and the table has the copies. -/
theorem copiesOrigins {node : Nat} (h : l.Accounted) (hd : l.draft.WellFormed)
    (hnode : node < l.draft.nodes.size) : l.CopiesOrigins node := by
  obtain ⟨t, rfl, ht⟩ := hd.exists_standsIn hnode
  have hs := hd.lists_subtree ht
  obtain ⟨table, hfold, htable⟩ := Draft.exists_table hd ht hs (List.prefix_refl _)
  have hforget := forget_foldlM (l.draft.subtree t.id).members ∅ l
  rw [hfold] at hforget
  obtain ⟨⟨table', l'⟩, hpass, heq⟩ := Option.map_eq_some_iff.1 hforget
  obtain rfl := (Prod.mk.inj heq).1
  obtain ⟨-, -, horigin⟩ := h.lookup_of_foldlM_copyNext
    (fun i hi => ht.lt_size ((hs.mem_members i).1 hi)) hpass
  refine ⟨table', l', hpass, fun i hi => ?_⟩
  obtain ⟨k, hk⟩ := List.getElem?_of_mem hi
  exact ⟨_, htable k i hk, (horigin i _ (htable k i hk)).2⟩

theorem copyByTable {node id : Nat} (h : l.Accounted)
    (hcopy : l.copyByTable node = some (id, l')) : l'.Accounted := by
  obtain ⟨⟨table, l₁⟩, hpass, hrest⟩ := Option.bind_eq_some_iff.1 hcopy
  obtain ⟨c, -, hout⟩ := Option.bind_eq_some_iff.1 hrest
  obtain ⟨-, rfl⟩ := Prod.mk.inj (Option.some.inj hout)
  exact h.foldlM_copyNext hpass

theorem copies {node k : Nat} {ids ids' : Array Nat} (h : l.Accounted)
    (hcopy : Ledger.copies node k ids l = some (ids', l')) : l'.Accounted := by
  induction k generalizing ids l with
  | zero =>
    obtain ⟨-, rfl⟩ := Prod.mk.inj (Option.some.inj hcopy)
    exact h
  | succ k ih =>
    obtain ⟨⟨id, l₁⟩, hone, hrest⟩ := Option.bind_eq_some_iff.1 hcopy
    exact ih (h.copyByTable hone) hrest

/-! ## What is put in between -/

section Between

variable {d : Draft} (h : Accounted ⟨d, origins⟩)

include h

theorem nothing : Accounted ⟨(d.leaf .empty).2, origins⟩ :=
  h.add_bare rfl rfl

theorem group (kind : GroupKind) (left right : Nat) :
    Accounted ⟨(d.group kind left right).2, origins⟩ :=
  h.add_bare rfl rfl

theorem quantify (q : Quantifier) (body : Nat) : Accounted ⟨(d.quantify q body).2, origins⟩ :=
  h.add_bare rfl rfl

theorem groupFrom (kind : GroupKind) (joined : Nat) (items : List Nat) :
    Accounted ⟨(Draft.groupFrom kind joined items d).2, origins⟩ := by
  induction items generalizing joined d with
  | nil => exact h
  | cons item items ih => exact ih (h.group kind joined item) _

theorem groupOf (kind : GroupKind) (items : List Nat) :
    Accounted ⟨(d.groupOf kind items).2, origins⟩ := by
  cases items with
  | nil => exact h.nothing
  | cons first rest => exact h.groupFrom kind first rest

theorem optionalOver (id : Nat) (inner : Option Nat) :
    Accounted ⟨(Ledger.optionalOver id inner d).2, origins⟩ :=
  (h.groupFrom .sequence id inner.toList).quantify .optional _

theorem loopLast (ids : Array Nat) (last : Nat) :
    Accounted ⟨(Ledger.loopLast ids last d).2, origins⟩ :=
  (h.quantify .plus last).groupOf .sequence _

end Between

/-! ## Commands -/

theorem optionals {node k : Nat} {inner inner' : Option Nat} (h : l.Accounted)
    (hcopy : Ledger.optionals node k inner l = some (inner', l')) : l'.Accounted := by
  induction k generalizing inner l with
  | zero =>
    obtain ⟨-, rfl⟩ := Prod.mk.inj (Option.some.inj hcopy)
    exact h
  | succ k ih =>
    obtain ⟨⟨id, l₁⟩, hone, hrest⟩ := Option.bind_eq_some_iff.1 hcopy
    exact ih ((h.copyByTable hone).optionalOver id inner) hrest

theorem spellOut {node min i : Nat} {max : Option Nat} (h : l.Accounted)
    (hout : l.spellOut node min max = some (i, l')) : l'.Accounted := by
  unfold Ledger.spellOut at hout
  cases max with
  | none =>
    obtain ⟨⟨ids, l₁⟩, hcopies, hrest⟩ := Option.bind_eq_some_iff.1 hout
    obtain ⟨last, -, hlast⟩ := Option.bind_eq_some_iff.1 hrest
    obtain ⟨-, rfl⟩ := Prod.mk.inj (Option.some.inj hlast)
    exact (h.copies hcopies).loopLast ids last
  | some max =>
    dsimp only at hout
    split at hout
    · obtain ⟨⟨inner, l₁⟩, hinner, hrest⟩ := Option.bind_eq_some_iff.1 hout
      obtain ⟨-, rfl⟩ := Prod.mk.inj (Option.some.inj hrest)
      exact (h.optionals hinner).optionalOver node inner
    · obtain ⟨⟨ids, l₁⟩, hcopies, hrest⟩ := Option.bind_eq_some_iff.1 hout
      obtain ⟨⟨tail, l₂⟩, htail, hlast⟩ := Option.bind_eq_some_iff.1 hrest
      obtain ⟨-, rfl⟩ := Prod.mk.inj (Option.some.inj hlast)
      exact ((h.copies hcopies).optionals htail).groupOf .sequence _

theorem expand {node i : Nat} {o : Occurrence} (h : l.Accounted)
    (hout : l.expand node o = some (i, l')) : l'.Accounted := by
  unfold Ledger.expand at hout
  split at hout
  · obtain ⟨-, rfl⟩ := Prod.mk.inj (Option.some.inj hout)
    exact h.nothing
  · obtain ⟨-, rfl⟩ := Prod.mk.inj (Option.some.inj hout)
    exact h
  · obtain ⟨-, rfl⟩ := Prod.mk.inj (Option.some.inj hout)
    exact h.quantify .optional node
  · obtain ⟨-, rfl⟩ := Prod.mk.inj (Option.some.inj hout)
    exact h.quantify .star node
  · obtain ⟨-, rfl⟩ := Prod.mk.inj (Option.some.inj hout)
    exact h.quantify .plus node
  · exact h.spellOut hout

/-- Each command keeps the account. -/
theorem carryOut {c : Command} {i : Nat} (h : l.Accounted)
    (hout : l.carryOut c = some (.ok i, l')) : l'.Accounted := by
  cases c with
  | leaf term =>
    obtain ⟨-, rfl⟩ := Prod.mk.inj (Option.some.inj hout)
    exact h.add_leaf (by simp) (by simp)
  | particle label term =>
    obtain ⟨-, rfl⟩ := Prod.mk.inj (Option.some.inj hout)
    have hlabel : Accounted
        ⟨{ l.draft with labels := l.draft.labels.push label }, l.origins⟩ := by
      refine ⟨fun hn hid => ?_, h.known, h.alike, h.apart, h.alone⟩
      exact Nat.lt_of_lt_of_le (h.declared hn hid) (by simp)
    refine hlabel.add_leaf ?_ fun i n' id hn' hid hnew => ?_
    · rintro _ ⟨⟩
      simp
    · obtain rfl := Option.some.inj hnew
      exact Nat.lt_irrefl _ (h.declared hn' hid)
  | group kind left right =>
    obtain ⟨-, rfl⟩ := Prod.mk.inj (Option.some.inj hout)
    exact h.group kind left right
  | quantified q body =>
    obtain ⟨-, rfl⟩ := Prod.mk.inj (Option.some.inj hout)
    exact h.quantify q body
  | groupOf kind items =>
    obtain ⟨-, rfl⟩ := Prod.mk.inj (Option.some.inj hout)
    exact h.groupOf kind items
  | repeated node o =>
    unfold Ledger.carryOut at hout
    dsimp only at hout
    split at hout
    · cases hout
    · obtain ⟨⟨j, l₁⟩, hexpand, hrest⟩ := Option.bind_eq_some_iff.1 hout
      obtain ⟨-, rfl⟩ := Prod.mk.inj (Option.some.inj hrest)
      exact h.expand hexpand

end Accounted

end Ledger

/-- Whatever commands have been carried out, the ledger accounts for the particles. -/
theorem Draft.Recorded.accounted {d : Draft} {ids : List Nat} {origins : List (Nat × Nat)}
    (h : d.Recorded ids origins) : Ledger.Accounted ⟨d, origins⟩ := by
  induction h with
  | empty limits => constructor <;> simp [Draft.empty]
  | withLimits h limits ih => exact ⟨ih.declared, ih.known, ih.alike, ih.apart, ih.alone⟩
  | perform h c hc hout ih => exact ih.carryOut hout

end ElementContent
