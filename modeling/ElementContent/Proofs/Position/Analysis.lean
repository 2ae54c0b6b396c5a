import ElementContent.Position.Analysis
import ElementContent.Proofs.Language.Local
import ElementContent.Proofs.Position.Numbering
import ElementContent.Proofs.Position.Set

/-!
# The analysis reads the marked words

The analysis of a content computes four facts without listing a word. They are the facts about the
words of marks, where each leaf that takes a child is marked by its position.

- `Summary.isExact_eval`: the summary of a tree says which positions begin and end its words, and
  whether the empty word is one of them.
- `Tree.adjacent_marked_iff`: two positions stand next to each other in some word if and only if
  some node of the tree makes a link between them.
- `Analysis.IsExact`: all that is known of the analysis of a declaration, by its words;
  `Analysis.isExact_ofDeclaration` proves it.
-/

namespace ElementContent

namespace Summary

/-- What a summary says is so: its sets have room for the capacity and hold the positions that begin
and end the words of the language. -/
structure IsExact (capacity : Nat) (a : Language Nat) (s : Summary) : Prop where
  words_first : s.first.words = (capacity + 63) / 64
  words_last : s.last.words = (capacity + 63) / 64
  first_iff : ∀ p, s.first.contains p = true ↔ a.Begins p
  last_iff : ∀ p, s.last.contains p = true ↔ a.Ends p
  nullable_iff : s.nullable = true ↔ a []

variable {capacity : Nat} {a b : Language Nat} {l r s : Summary}

theorem isExact_leaf_some {p : Nat} (hp : p < capacity) :
    (leaf capacity (some p)).IsExact capacity fun w => w = [p] where
  words_first := PositionSet.words_singleton _ _
  words_last := PositionSet.words_singleton _ _
  first_iff q := by
    show (PositionSet.singleton capacity p).contains q = true ↔ ∃ v, q :: v = [p]
    simp [PositionSet.contains_singleton hp, eq_comm]
  last_iff q := by
    show (PositionSet.singleton capacity p).contains q = true ↔ ∃ u, u ++ [q] = [p]
    rw [PositionSet.contains_singleton hp]
    constructor
    · rintro rfl
      exact ⟨[], rfl⟩
    · rintro ⟨u, hu⟩
      have hu : u ++ [q] = [] ++ [p] := hu
      exact (List.cons.inj (List.append_inj' hu rfl).2).1.symm
  nullable_iff := by simp [leaf]

theorem isExact_leaf_none : (leaf capacity none).IsExact capacity fun w => w = [] where
  words_first := rfl
  words_last := rfl
  first_iff q := by simp [leaf, Language.Begins]
  last_iff q := by simp [leaf, Language.Ends]
  nullable_iff := by simp [leaf]

theorem isExact_sequence (hl : l.IsExact capacity a) (hr : r.IsExact capacity b)
    (ha : ∃ w, a w) (hb : ∃ w, b w) : (l.sequence r).IsExact capacity (.append a b) where
  words_first := by
    show (if l.nullable then l.first.union r.first else l.first).words = _
    by_cases hn : l.nullable = true
    · simp [hn, hl.words_first]
    · simp [hn, hl.words_first]
  words_last := by
    show (if r.nullable then r.last.union l.last else r.last).words = _
    by_cases hn : r.nullable = true
    · simp [hn, hr.words_last]
    · simp [hn, hr.words_last]
  first_iff p := by
    rw [Language.begins_append hb, ← hl.first_iff, ← hr.first_iff, ← hl.nullable_iff]
    show (if l.nullable then l.first.union r.first else l.first).contains p = true ↔ _
    by_cases hn : l.nullable = true
    · rw [if_pos hn, PositionSet.contains_union_of_words (hr.words_first.trans hl.words_first.symm)]
      simp [hn]
    · simp [hn]
  last_iff p := by
    rw [Language.ends_append ha, ← hl.last_iff, ← hr.last_iff, ← hr.nullable_iff]
    show (if r.nullable then r.last.union l.last else r.last).contains p = true ↔ _
    by_cases hn : r.nullable = true
    · rw [if_pos hn, PositionSet.contains_union_of_words (hl.words_last.trans hr.words_last.symm)]
      simp [hn]
    · simp [hn]
  nullable_iff := by
    rw [Language.append_nil_iff, ← hl.nullable_iff, ← hr.nullable_iff]
    exact Bool.and_eq_true_iff

theorem isExact_choice (hl : l.IsExact capacity a) (hr : r.IsExact capacity b) :
    (l.choice r).IsExact capacity (.union a b) where
  words_first := hl.words_first
  words_last := hl.words_last
  first_iff p := by
    rw [Language.begins_union, ← hl.first_iff, ← hr.first_iff]
    exact PositionSet.contains_union_of_words (hr.words_first.trans hl.words_first.symm) p
  last_iff p := by
    rw [Language.ends_union, ← hl.last_iff, ← hr.last_iff]
    exact PositionSet.contains_union_of_words (hr.words_last.trans hl.words_last.symm) p
  nullable_iff := by
    show (l.nullable || r.nullable) = true ↔ a [] ∨ b []
    rw [Bool.or_eq_true, hl.nullable_iff, hr.nullable_iff]

theorem isExact_iterate {q : Quantifier} (hs : s.IsExact capacity a) {t : Summary}
    (hf : t.first = s.first) (hl : t.last = s.last)
    (hn : t.nullable = true ↔ q ≠ .plus ∨ s.nullable = true) :
    t.IsExact capacity (q.iterate a) where
  words_first := hf ▸ hs.words_first
  words_last := hl ▸ hs.words_last
  first_iff p := by rw [Language.begins_iterate, hf, hs.first_iff]
  last_iff p := by rw [Language.ends_iterate, hl, hs.last_iff]
  nullable_iff := by rw [Language.iterate_nil_iff, hn, hs.nullable_iff]

variable {position : Nat → Option Nat}

/-- The summary of a tree is exact, if there is room for every position. -/
theorem isExact_eval (hroom : ∀ i p, position i = some p → p < capacity) (t : Tree) :
    (t.eval (ofNode capacity position)).IsExact capacity (t.marked position) := by
  induction t with
  | leaf i term particle =>
    show (leaf capacity (position i)).IsExact capacity fun w => w = (position i).toList
    cases hp : position i with
    | none => exact isExact_leaf_none
    | some p => exact isExact_leaf_some (hroom i p hp)
  | group i kind l r ihl ihr =>
    cases kind with
    | sequence => exact isExact_sequence ihl ihr (l.exists_marked _) (r.exists_marked _)
    | choice => exact isExact_choice ihl ihr
  | quantified i q body ih =>
    cases q with
    | optional => exact isExact_iterate ih rfl rfl (by simp [Tree.eval, ofNode, optional])
    | star => exact isExact_iterate ih rfl rfl (by simp [Tree.eval, ofNode, star])
    | plus => exact isExact_iterate ih rfl rfl (by simp [Tree.eval, ofNode, plus])

/-- The target of a link that a node makes has the room of the analysis. -/
theorem words_of_link (hroom : ∀ i p, position i = some p → p < capacity) {t : Tree} {k : Link}
    (hk : (t.eval (ofNode capacity position)).link = some k) :
    k.target.words = (capacity + 63) / 64 := by
  cases t with
  | leaf i term particle =>
    have : (leaf capacity (position i)).link = some k := hk
    cases hp : position i with
    | none => simp [leaf, hp] at this
    | some p => simp [leaf, hp] at this
  | group i kind l r =>
    cases kind with
    | sequence =>
      obtain rfl := Option.some.inj hk
      exact (isExact_eval hroom r).words_first
    | choice => cases hk
  | quantified i q body =>
    cases q with
    | optional => cases hk
    | star =>
      obtain rfl := Option.some.inj hk
      exact (isExact_eval hroom body).words_first
    | plus =>
      obtain rfl := Option.some.inj hk
      exact (isExact_eval hroom body).words_first

end Summary

/-! ## Links and neighbours -/

/-- The link joins the first position to the second. -/
def Link.Joins (k : Link) (p q : Nat) : Prop :=
  k.source.contains p = true ∧ k.target.contains q = true

namespace Tree

variable {capacity : Nat} {position : Nat → Option Nat}

/-- Two positions stand next to each other in a word if some node below makes a link that joins
them. -/
theorem adjacent_marked_iff (hroom : ∀ i p, position i = some p → p < capacity) (t : Tree)
    {p q : Nat} : (t.marked position).Adjacent p q ↔
      ∃ s ∈ t.subtrees, ∃ k, (s.eval (Summary.ofNode capacity position)).link = some k ∧
        k.Joins p q := by
  induction t with
  | leaf i term particle =>
    -- a leaf has one mark at most, so no two stand next to each other
    have hshort : (position i).toList.length ≤ 1 := by cases position i <;> simp
    constructor
    · rintro ⟨u, v, huv⟩
      have huv : u ++ p :: q :: v = (position i).toList := huv
      rw [← huv] at hshort
      simp only [List.length_append, List.length_cons] at hshort
      omega
    · rintro ⟨s, hs, k, hk, -⟩
      obtain rfl := List.mem_singleton.1 hs
      have : (Summary.leaf capacity (position i)).link = some k := hk
      cases hp : position i with
      | none => simp [Summary.leaf, hp] at this
      | some p => simp [Summary.leaf, hp] at this
  | group i kind l r ihl ihr =>
    have hl := Summary.isExact_eval hroom l
    have hr := Summary.isExact_eval hroom r
    simp only [subtrees, List.mem_cons, List.mem_append, or_and_right, exists_or,
      exists_eq_left]
    cases kind with
    | sequence =>
      show (Language.append (l.marked position) (r.marked position)).Adjacent p q ↔ _
      rw [Language.adjacent_append (l.exists_marked _) (r.exists_marked _), ihl, ihr,
        ← hl.last_iff, ← hr.first_iff]
      -- the link of the sequence itself joins the ends of the left part to what begins the right
      have hown : (∃ k, ((group i .sequence l r).eval (Summary.ofNode capacity position)).link
          = some k ∧ k.Joins p q) ↔
          (l.eval (Summary.ofNode capacity position)).last.contains p = true ∧
          (r.eval (Summary.ofNode capacity position)).first.contains q = true := by
        constructor
        · rintro ⟨k, hk, hpq⟩
          obtain rfl := Option.some.inj hk
          exact hpq
        · exact fun h => ⟨_, rfl, h⟩
      rw [hown, ← or_assoc, or_comm]
    | choice =>
      show (Language.union (l.marked position) (r.marked position)).Adjacent p q ↔ _
      rw [Language.adjacent_union, ihl, ihr]
      have hown : ¬ ∃ k, ((group i .choice l r).eval (Summary.ofNode capacity position)).link
          = some k ∧ k.Joins p q := by
        rintro ⟨k, hk, -⟩
        cases hk
      rw [or_iff_right hown]
  | quantified i x body ih =>
    have hbody := Summary.isExact_eval hroom body
    simp only [subtrees, List.mem_cons, or_and_right, exists_or, exists_eq_left]
    show (x.iterate (body.marked position)).Adjacent p q ↔ _
    rw [Language.adjacent_iterate, ih, ← hbody.last_iff, ← hbody.first_iff, or_comm]
    -- the link of the quantifier itself joins the ends of the body to its beginnings
    refine or_congr_left ?_
    cases x with
    | optional =>
      constructor
      · exact fun h => absurd rfl h.1
      · rintro ⟨k, hk, -⟩
        cases hk
    | star =>
      constructor
      · exact fun h => ⟨_, rfl, h.2⟩
      · rintro ⟨k, hk, hpq⟩
        obtain rfl := Option.some.inj hk
        exact ⟨by decide, hpq⟩
    | plus =>
      constructor
      · exact fun h => ⟨_, rfl, h.2⟩
      · rintro ⟨k, hk, hpq⟩
        obtain rfl := Option.some.inj hk
        exact ⟨by decide, hpq⟩

end Tree

namespace Analysis

/-! ## The table of followers -/

/-- A step of `addLink`: the position takes on the members of the target. -/
theorem getElem?_foldl_modify {t : PositionSet} (ps : List Nat) (hps : ps.Nodup)
    (follow : Array PositionSet) (p : Nat) :
    (ps.foldl (fun follow p => follow.modify p (·.union t)) follow)[p]? =
      if p ∈ ps then (follow[p]?).map (·.union t) else follow[p]? := by
  induction ps generalizing follow with
  | nil => simp
  | cons x ps ih =>
    obtain ⟨hx, hps⟩ := List.nodup_cons.1 hps
    rw [List.foldl_cons, ih hps, Array.getElem?_modify]
    by_cases hpx : x = p
    · subst hpx
      simp [hx]
    · have : p ≠ x := fun h => hpx h.symm
      simp [hpx, this]

theorem getElem?_addLink (follow : Array PositionSet) (k : Link) (p : Nat) :
    (addLink follow k)[p]? =
      if k.source.contains p = true then (follow[p]?).map (·.union k.target) else follow[p]? := by
  have hnodup : k.source.members.Nodup := k.source.pairwise_members.imp fun h => Nat.ne_of_lt h
  rw [addLink, getElem?_foldl_modify _ hnodup]
  simp only [PositionSet.mem_members]

/-- A table entry holds what it held before and what the links join to its position. -/
theorem getElem?_foldl_addLink {words : Nat} (links : List Link) (p : Nat)
    (hlinks : ∀ k ∈ links, k.target.words = words) (follow : Array PositionSet) {s : PositionSet}
    (hs : follow[p]? = some s) (hwords : s.words = words) :
    ∃ t, (links.foldl addLink follow)[p]? = some t ∧ t.words = words ∧
      ∀ q, t.contains q = true ↔ s.contains q = true ∨ ∃ k ∈ links, k.Joins p q := by
  induction links generalizing follow s with
  | nil => exact ⟨s, hs, hwords, by simp⟩
  | cons k links ih =>
    have hstep := getElem?_addLink follow k p
    have hk := hlinks k List.mem_cons_self
    have hrest : ∀ k ∈ links, k.target.words = words :=
      fun k' hk' => hlinks k' (List.mem_cons_of_mem k hk')
    by_cases hp : k.source.contains p = true
    · rw [if_pos hp, hs] at hstep
      obtain ⟨t, ht, htw, hiff⟩ := ih hrest _ hstep hwords
      refine ⟨t, ht, htw, ?_⟩
      intro q
      rw [hiff, PositionSet.contains_union_of_words (hk.trans hwords.symm)]
      simp [Link.Joins, hp, or_assoc]
    · rw [if_neg hp, hs] at hstep
      obtain ⟨t, ht, htw, hiff⟩ := ih hrest _ hstep hwords
      refine ⟨t, ht, htw, ?_⟩
      intro q
      rw [hiff]
      simp [Link.Joins, hp]

theorem size_foldl_addLink (links : List Link) (follow : Array PositionSet) :
    (links.foldl addLink follow).size = follow.size := by
  induction links generalizing follow with
  | nil => rfl
  | cons k links ih =>
    rw [List.foldl_cons, ih, addLink]
    induction k.source.members generalizing follow with
    | nil => rfl
    | cons p ps ihp => rw [List.foldl_cons, ihp, Array.size_modify]

/-- The links of the nodes that have been seen are those of the subtrees. -/
theorem mem_linksSeen_iff {d : Declaration} {n : Numbering} {value : Nat → Node Summary → Summary}
    (hseen : ∀ i, i ∈ n.seen ↔ i ∈ d.tree.ids) {k : Link} :
    k ∈ linksSeen n (d.collect value) ↔ ∃ s ∈ d.tree.subtrees, (s.eval value).link = some k := by
  rw [linksSeen, List.mem_filterMap, d.collect_eq_map_trees]
  constructor
  · rintro ⟨⟨x, i⟩, hx, hk⟩
    rw [List.mk_mem_zipIdx_iff_getElem?, Array.getElem?_toList, Array.getElem?_map] at hx
    obtain ⟨t, ht, rfl⟩ := Option.map_eq_some_iff.1 hx
    obtain ⟨hi, hlink⟩ : n.seen.contains i = true ∧ (t.eval value).link = some k :=
      Option.ite_none_right_eq_some.1 hk
    have hmem : i ∈ d.tree.ids := (hseen i).1 (Std.HashSet.mem_iff_contains.2 hi)
    rw [Tree.ids_eq_map_subtrees] at hmem
    obtain ⟨s, hs, rfl⟩ := List.mem_map.1 hmem
    obtain ⟨hlt, hst⟩ := d.mem_subtrees hs
    rw [Array.getElem?_eq_getElem hlt, hst] at ht
    obtain rfl := Option.some.inj ht
    exact ⟨s, hs, hlink⟩
  · rintro ⟨s, hs, hk⟩
    obtain ⟨hlt, hst⟩ := d.mem_subtrees hs
    have hi : s.id ∈ n.seen := by
      rw [hseen, Tree.ids_eq_map_subtrees]
      exact List.mem_map_of_mem hs
    refine ⟨(s.eval value, s.id), ?_, ?_⟩
    · rw [List.mk_mem_zipIdx_iff_getElem?, Array.getElem?_toList, Array.getElem?_map,
        Array.getElem?_eq_getElem hlt, hst]
      rfl
    · show (if n.seen.contains s.id = true then _ else none) = some k
      rw [if_pos (Std.HashSet.mem_iff_contains.1 hi)]
      exact hk

/-! ## The whole analysis -/

/-- What is known of the analysis of a content: the leaves left to right, the position of each, and
the facts about the words of positions. -/
structure IsExact (t : Tree) (a : Analysis) : Prop where
  leaves_eq : a.leaves.toList = t.leaves
  nodup : t.ids.Nodup
  position_iff : ∀ i p : Nat, a.positionOf? i = some p ↔ (a.leaves[p]?).map (·.node) = some i
  words_first : a.first.words = (a.leaves.size + 63) / 64
  first_iff : ∀ p, a.first.contains p = true ↔ (t.marked a.positionOf?).Begins p
  last_iff : ∀ p, a.last.contains p = true ↔ (t.marked a.positionOf?).Ends p
  nullable_iff : a.nullable = true ↔ t.marked a.positionOf? []
  size_follow : a.follow.size = a.leaves.size
  follow_iff : ∀ {p : Nat} {s : PositionSet}, a.follow[p]? = some s →
    s.words = (a.leaves.size + 63) / 64 ∧
      ∀ q, s.contains q = true ↔ (t.marked a.positionOf?).Adjacent p q

theorem ofDeclaration_eq_ok_iff {d : Declaration} {limits : Limits} {a : Analysis} :
    ofDeclaration d limits = .ok a ↔ ∃ n, Numbering.ofTree limits d.tree = .ok n ∧
      n.leaves.size ≤ limits.positions ∧ a = ofNumbering d n := by
  unfold ofDeclaration
  cases hn : Numbering.ofTree limits d.tree with
  | error e => simp [bind, Except.bind]
  | ok n =>
    have hc := @Limits.check_eq_ok_iff limits .positions n.leaves.size
    simp only [Limits.bound] at hc
    cases hcheck : limits.check .positions n.leaves.size with
    | error e =>
      rw [hcheck] at hc
      simp only [reduceCtorEq, false_iff] at hc
      simp [bind, Except.bind, hcheck, hc]
    | ok u =>
      rw [hcheck] at hc
      simp [bind, Except.bind, pure, Except.pure, hcheck, hc.1 rfl, eq_comm]

/-- The limits decide whether the analysis of a declaration succeeds, and nothing else. -/
theorem ofDeclaration_unique {d : Declaration} {limits limits' : Limits} {a a' : Analysis}
    (h : ofDeclaration d limits = .ok a) (h' : ofDeclaration d limits' = .ok a') : a = a' := by
  obtain ⟨n, hn, -, rfl⟩ := ofDeclaration_eq_ok_iff.1 h
  obtain ⟨n', hn', -, rfl⟩ := ofDeclaration_eq_ok_iff.1 h'
  rw [Numbering.walk_unique hn hn']

/-- The analysis of a declaration is exact. -/
theorem isExact_ofDeclaration {d : Declaration} {limits : Limits} {a : Analysis}
    (h : ofDeclaration d limits = .ok a) : a.IsExact d.tree := by
  obtain ⟨n, hn, -, rfl⟩ := ofDeclaration_eq_ok_iff.1 h
  have hwalk := Numbering.ofTree_walked hn
  have hcons := Numbering.consistent_ofTree hn
  have hroom : ∀ i p : Nat, n.positions[i]? = some p → p < n.leaves.size :=
    fun _ _ => hcons.lt_size
  have hroot : d.fold (Summary.ofNode n.leaves.size (n.positions[·]?)) =
      d.tree.eval (Summary.ofNode n.leaves.size (n.positions[·]?)) := d.fold_eq_eval _
  have hexact := Summary.isExact_eval hroom d.tree
  rw [← hroot] at hexact
  have hseen : ∀ i, i ∈ n.seen ↔ i ∈ d.tree.ids := by
    intro i
    rw [hwalk.seen_iff]
    simp [Numbering.start]
  refine
    { leaves_eq := by simpa [ofNumbering, Numbering.start] using hwalk.leaves_eq
      nodup := hwalk.nodup
      position_iff := hcons.position_iff
      words_first := hexact.words_first
      first_iff := hexact.first_iff
      last_iff := hexact.last_iff
      nullable_iff := hexact.nullable_iff
      size_follow := by simp [ofNumbering, size_foldl_addLink]
      follow_iff := ?_ }
  intro p s hs
  have hlinks : ∀ k ∈ linksSeen n (d.collect (Summary.ofNode n.leaves.size (n.positions[·]?))),
      k.target.words = (n.leaves.size + 63) / 64 := by
    intro k hk
    obtain ⟨t, -, hk⟩ := (mem_linksSeen_iff hseen).1 hk
    exact Summary.words_of_link hroom hk
  have hp : p < n.leaves.size := by
    have := (Array.getElem?_eq_some_iff.1 hs).1
    simpa [ofNumbering, size_foldl_addLink] using this
  -- before any link, the position has no followers
  have hstart : (Array.replicate n.leaves.size (PositionSet.empty n.leaves.size))[p]? =
      some (.empty n.leaves.size) := by simp [hp]
  obtain ⟨t, ht, htw, hiff⟩ := getElem?_foldl_addLink _ p hlinks _ hstart rfl
  obtain rfl : t = s := Option.some.inj (ht.symm.trans hs)
  refine ⟨htw, ?_⟩
  intro q
  rw [hiff, PositionSet.contains_empty]
  show _ ↔ (d.tree.marked (n.positions[·]?)).Adjacent p q
  rw [Tree.adjacent_marked_iff hroom]
  simp only [Bool.false_eq_true, false_or, mem_linksSeen_iff hseen]
  constructor
  · rintro ⟨k, ⟨x, hx, hk⟩, hpq⟩
    exact ⟨x, hx, k, hk, hpq⟩
  · rintro ⟨x, hx, k, hk, hpq⟩
    exact ⟨k, ⟨x, hx, hk⟩, hpq⟩

theorem words_last_ofDeclaration {d : Declaration} {limits : Limits} {a : Analysis}
    (h : ofDeclaration d limits = .ok a) : a.last.words = (a.leaves.size + 63) / 64 := by
  obtain ⟨n, hn, -, rfl⟩ := ofDeclaration_eq_ok_iff.1 h
  have hroom : ∀ i p : Nat, n.positions[i]? = some p → p < n.leaves.size :=
    fun _ _ => (Numbering.consistent_ofTree hn).lt_size
  have hexact := Summary.isExact_eval hroom d.tree
  rw [← d.fold_eq_eval] at hexact
  exact hexact.words_last

namespace IsExact

variable {t : Tree} {a : Analysis}

/-- Nodes at the same position are the same. -/
theorem positionOf?_injective (h : a.IsExact t) {i j p : Nat} (hi : a.positionOf? i = some p)
    (hj : a.positionOf? j = some p) : i = j :=
  Option.some.inj (((h.position_iff i p).1 hi).symm.trans ((h.position_iff j p).1 hj))

/-- The words of positions are local. -/
theorem isLocal (h : a.IsExact t) : (t.marked a.positionOf?).IsLocal :=
  Tree.isLocal_marked h.nodup fun _ _ _ hi hj => h.positionOf?_injective hi hj

/-- A position in a word is that of a leaf. -/
theorem exists_leaf (h : a.IsExact t) {p : Nat} (hp : (t.marked a.positionOf?).Occurs p) :
    ∃ leaf, a.leaves[p]? = some leaf := by
  obtain ⟨i, -, hi⟩ := Tree.occurs_marked hp
  obtain ⟨leaf, hl, -⟩ := Option.map_eq_some_iff.1 ((h.position_iff i p).1 hi)
  exact ⟨leaf, hl⟩

end IsExact

end Analysis

end ElementContent
