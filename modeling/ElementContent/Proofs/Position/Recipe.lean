import ElementContent.Proofs.Position.Block
import Mathlib.Data.Set.Card

/-!
# Sets of positions are finite sets

A set of positions is put together from empty sets by adding positions and by uniting sets. As long
as a position is within the capacity and a united set is no wider than the one that takes it, the
result is the finite set of all that was added, and the same holds of the blocks that stand for it.
A wider receiver is what a search for states needs: it unites the sets of an analysis into sets with
room for one more position, which may be one more block.

- `PositionSet.blocks`: the blocks of a set. A set is known from them (`blocks_inj`), and every
  operation on sets is one on blocks (`blocks_empty`, `blocks_insert?`, `blocks_union`,
  `readsAs_blocks`, `intersects_blocks`).
- `Recipe`: how a set is put together, and what it adds.
- `sets_hold_what_is_added`: what is read off a set, off its blocks and off two sets.
-/

namespace ElementContent

/-- What is read off a row of blocks is what is read off a set. -/
structure Blocks.ReadsAs (r : Blocks) (s : PositionSet) : Prop where
  contains_eq : ∀ p, Blocks.contains r p = s.contains p
  members_eq : Blocks.members r = s.members
  size_eq : Blocks.size r = s.size
  isEmpty_eq : Blocks.isEmpty r = s.isEmpty

namespace PositionSet

variable {s t : PositionSet}

/-- The blocks of a set. -/
def blocks (s : PositionSet) : Blocks :=
  (List.range s.words).map fun i => BitVec.ofNat 64 (s.bits >>> (64 * i))

@[simp] theorem length_blocks (s : PositionSet) : s.blocks.length = s.words := by
  simp [blocks]

@[simp] theorem contains_blocks (s : PositionSet) (p : Nat) :
    Blocks.contains s.blocks p = s.contains p := by
  rw [Blocks.contains_eq, blocks, List.getElem?_map]
  by_cases hp : p < s.room
  · have hlt : p / 64 < s.words := by
      rw [room] at hp
      omega
    have hmod : p % 64 < 64 := Nat.mod_lt p (by decide)
    rw [List.getElem?_range hlt, Option.map_some, Option.any_some, BitVec.getLsbD_ofNat,
      Nat.testBit_shiftRight, Nat.div_add_mod, decide_eq_true hmod, Bool.true_and, contains]
  · have hle : s.words ≤ p / 64 := by
      rw [room] at hp
      omega
    have hno : s.contains p = false := Bool.eq_false_iff.2 fun h => hp (lt_room_of_contains h)
    simp [hle, hno]

/-- A set is known from its blocks. -/
theorem blocks_inj : s.blocks = t.blocks ↔ s = t := by
  refine ⟨fun h => ext_contains ?_ fun p => ?_, fun h => h ▸ rfl⟩
  · rw [← length_blocks, h, length_blocks]
  · rw [← contains_blocks, h, contains_blocks]

theorem blocks_empty (capacity : Nat) : (empty capacity).blocks = Blocks.empty capacity := by
  refine Blocks.ext_contains ?_ fun p => ?_
  · simp [Blocks.empty]
  · rw [contains_blocks, contains_empty, Blocks.contains_empty]

/-- There is the block for a position if and only if there is room for it. -/
theorem blocks_insert? (s : PositionSet) (p : Nat) :
    Blocks.insert? s.blocks p = (s.insert? p).map blocks := by
  by_cases hp : p < s.room
  · have hlt : p < 64 * s.blocks.length := by rwa [length_blocks]
    obtain ⟨r, hr⟩ := Blocks.exists_insert?_iff.2 hlt
    rw [hr, insert?, dif_pos hp, Option.map_some, Option.some_inj]
    refine Blocks.ext_contains ?_ fun q => ?_
    · rw [Blocks.length_insert? hr, length_blocks, length_blocks]
      rfl
    · rw [Blocks.contains_insert? hr, contains_blocks, contains_blocks, contains_insertWithin]
  · rw [insert?, dif_neg hp, Option.map_none, Option.eq_none_iff_forall_ne_some]
    intro r hr
    have hlt := Blocks.exists_insert?_iff.1 ⟨r, hr⟩
    rw [length_blocks] at hlt
    exact hp hlt

theorem blocks_union (s t : PositionSet) :
    (s.union t).blocks = Blocks.union s.blocks t.blocks := by
  refine Blocks.ext_contains ?_ fun q => ?_
  · rw [Blocks.length_union, length_blocks, length_blocks, words_union]
  · rw [Blocks.contains_union, contains_blocks, contains_blocks, contains_blocks, contains_union,
      length_blocks, room]

theorem intersects_iff :
    s.intersects t = true ↔ ∃ p, s.contains p = true ∧ t.contains p = true := by
  simp only [intersects, bne_iff_ne, contains, ← Bool.and_eq_true, ← Nat.testBit_and]
  constructor
  · exact Nat.exists_testBit_of_ne_zero
  · rintro ⟨p, hp⟩ h0
    simp [h0] at hp

theorem intersects_blocks (s t : PositionSet) :
    Blocks.intersects s.blocks t.blocks = s.intersects t := by
  rw [Bool.eq_iff_iff, Blocks.intersects_iff, intersects_iff]
  simp only [contains_blocks]

theorem readsAs_blocks (s : PositionSet) : Blocks.ReadsAs s.blocks s := by
  have hmembers : Blocks.members s.blocks = s.members :=
    eq_of_ascending (Blocks.pairwise_members _) s.pairwise_members fun p => by
      rw [Blocks.mem_members, contains_blocks, mem_members]
  refine ⟨s.contains_blocks, hmembers, ?_, ?_⟩
  · rw [Blocks.size_eq_length_members, hmembers, size]
  · rw [Bool.eq_iff_iff, Blocks.isEmpty_iff, isEmpty_iff]
    simp only [contains_blocks]

/-- What is read off a set is right, if its members are to be the numbers of a kind. -/
structure Holds (s : PositionSet) (P : Nat → Prop) : Prop where
  contains_iff : ∀ p, s.contains p = true ↔ P p
  mem_members_iff : ∀ p, p ∈ s.members ↔ P p
  ascending : s.members.Pairwise (· < ·)
  finite : {p | P p}.Finite
  size_eq : s.size = {p | P p}.ncard
  isEmpty_iff : s.isEmpty = true ↔ ∀ p, ¬ P p

/-- It is enough that it contains them. -/
theorem holds_of_contains_iff {P : Nat → Prop} (h : ∀ p, s.contains p = true ↔ P p) :
    s.Holds P := by
  have hmem : ∀ p, p ∈ s.members ↔ P p := fun p => mem_members.trans (h p)
  have hset : {p | P p} = (s.members.toFinset : Set Nat) := by
    ext p
    simp [h p]
  have hnodup : s.members.Nodup := s.pairwise_members.imp fun hpq => Nat.ne_of_lt hpq
  refine ⟨h, hmem, s.pairwise_members, ?_, ?_, ?_⟩
  · rw [hset]
    exact s.members.toFinset.finite_toSet
  · rw [hset, Set.ncard_coe_finset, List.toFinset_card_of_nodup hnodup, size]
  · simp only [isEmpty_iff, ← h, Bool.not_eq_true]

end PositionSet

/-- How a set of positions is put together. -/
inductive Recipe where
  | empty (capacity : Nat)
  | insert (r : Recipe) (p : Nat)
  | union (r s : Recipe)

namespace Recipe

/-- The set that is put together. -/
def set : Recipe → PositionSet
  | empty capacity => .empty capacity
  | insert r p => r.set.insert p
  | union r s => r.set.union s.set

/-- The blocks that are put together, unless a block is missing. -/
def blocks? : Recipe → Option Blocks
  | empty capacity => some (Blocks.empty capacity)
  | insert r p => r.blocks?.bind (Blocks.insert? · p)
  | union r s => r.blocks?.bind fun b => s.blocks?.map (Blocks.union b)

/-- The capacity of the set that all is added to. -/
def capacity : Recipe → Nat
  | empty capacity => capacity
  | insert r _ => r.capacity
  | union r _ => r.capacity

/-- How many blocks the set has. -/
def width (r : Recipe) : Nat :=
  (r.capacity + 63) / 64

/-- Every position is within the capacity, and no set is united into one with fewer blocks. -/
def Sound : Recipe → Prop
  | empty _ => True
  | insert r p => r.Sound ∧ p < r.capacity
  | union r s => r.Sound ∧ s.Sound ∧ s.width ≤ r.width

/-- A position has been inserted, here or into a set that has been united. -/
def Adds : Recipe → Nat → Prop
  | empty _, _ => False
  | insert r p, q => r.Adds q ∨ p = q
  | union r s, q => r.Adds q ∨ s.Adds q

variable {r s : Recipe}

theorem words_set (r : Recipe) : r.set.words = r.width := by
  induction r with
  | empty capacity => rfl
  | insert r p ih => exact (PositionSet.words_insert _ p).trans ih
  | union r s ihr _ => exact ihr

theorem lt_room {p : Nat} (h : p < r.capacity) : p < r.set.room := by
  rw [PositionSet.room, words_set, width]
  omega

/-- The set contains what has been added, and nothing else. -/
theorem contains_set_iff (h : r.Sound) (q : Nat) : r.set.contains q = true ↔ r.Adds q := by
  induction r with
  | empty capacity => simp [set, Adds]
  | insert r p ih => simp [set, Adds, PositionSet.contains_insert (lt_room h.2), ih h.1]
  | union r s ihr ihs =>
    obtain ⟨hr, hs, hwidth⟩ := h
    have hlt : s.Adds q → q < r.set.room := by
      intro hq
      have hroom := PositionSet.lt_room_of_contains ((ihs hs).2 hq)
      rw [PositionSet.room, words_set] at hroom ⊢
      omega
    simp only [set, Adds, PositionSet.contains_union, Bool.or_eq_true, Bool.and_eq_true,
      decide_eq_true_iff, ihr hr, ihs hs]
    exact or_congr_right ⟨And.right, fun hq => ⟨hlt hq, hq⟩⟩

/-- No block is missing, and the blocks are those of the set. -/
theorem blocks?_eq (h : r.Sound) : r.blocks? = some r.set.blocks := by
  induction r with
  | empty capacity => rw [blocks?, set, PositionSet.blocks_empty]
  | insert r p ih =>
    rw [blocks?, ih h.1, Option.bind_some, PositionSet.blocks_insert?,
      PositionSet.insert?_eq (lt_room h.2)]
    rfl
  | union r s ihr ihs =>
    rw [blocks?, ihr h.1, ihs h.2.1, Option.bind_some, Option.map_some, set,
      PositionSet.blocks_union]

end Recipe

/-- A set that has been put together holds what has been added: it contains just that, lists it in
ascending order, counts it and is empty only if nothing was added. Two such sets intersect just if
something was added to both, and those with the same number of blocks are the same just if the same
was added to both, whatever the order. All of this is read off the blocks as well, and none of them
is missing while they are put together. -/
theorem sets_hold_what_is_added {r s : Recipe} (hr : r.Sound) (hs : s.Sound) :
    r.set.Holds r.Adds ∧
    (r.set.intersects s.set = true ↔ ∃ p, r.Adds p ∧ s.Adds p) ∧
    (r.width = s.width → (r.set = s.set ↔ ∀ p, r.Adds p ↔ s.Adds p)) ∧
    ∃ b c, r.blocks? = some b ∧ s.blocks? = some c ∧ b.length = r.width ∧
      Blocks.ReadsAs b r.set ∧ Blocks.intersects b c = r.set.intersects s.set ∧
      (b = c ↔ r.set = s.set) := by
  have hiff := Recipe.contains_set_iff hr
  have hiff' := Recipe.contains_set_iff hs
  refine ⟨PositionSet.holds_of_contains_iff hiff, ?_, fun hwidth => ⟨?_, ?_⟩, r.set.blocks,
    s.set.blocks, Recipe.blocks?_eq hr, Recipe.blocks?_eq hs, ?_, r.set.readsAs_blocks,
    PositionSet.intersects_blocks _ _, PositionSet.blocks_inj⟩
  · simp only [PositionSet.intersects_iff, hiff, hiff']
  · intro heq p
    rw [← hiff, heq, hiff']
  · intro hadds
    refine PositionSet.ext_contains ?_ fun p => ?_
    · rw [r.words_set, s.words_set, hwidth]
    · rw [Bool.eq_iff_iff, hiff, hiff', hadds]
  · rw [PositionSet.length_blocks, r.words_set]

/-- The last position of one block, united into a set that goes on into the next, and the first
position there. -/
def widenedRecipe : Recipe :=
  .insert (.union (.empty 65) (.insert (.empty 64) 63)) 64

/-- Both positions are held, and no more. -/
theorem sets_hold_what_is_added_widenedRecipe : widenedRecipe.Sound ∧
    widenedRecipe.set.contains 63 = true ∧ widenedRecipe.set.contains 64 = true ∧
    widenedRecipe.set.contains 0 = false ∧ ∃ b, widenedRecipe.blocks? = some b ∧
      b.length = 2 ∧ Blocks.contains b 63 = true := by
  have hsound : widenedRecipe.Sound :=
    ⟨⟨trivial, ⟨trivial, by decide⟩, by decide⟩, by decide⟩
  obtain ⟨hholds, -, -, b, -, hb, -, hlength, hreads, -⟩ := sets_hold_what_is_added hsound hsound
  have hlast : widenedRecipe.set.contains 63 = true :=
    (hholds.contains_iff 63).2 (.inl (.inr (.inr rfl)))
  refine ⟨hsound, hlast, (hholds.contains_iff 64).2 (.inr rfl), ?_, b, hb, hlength,
    (hreads.contains_eq 63).trans hlast⟩
  rw [Bool.eq_false_iff, ne_eq, hholds.contains_iff]
  simp [widenedRecipe, Recipe.Adds]

end ElementContent
