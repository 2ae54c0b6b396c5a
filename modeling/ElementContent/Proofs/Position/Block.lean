import ElementContent.Proofs.Position.Set
import Mathlib.Algebra.Ring.Nat

/-!
# Sets of positions, block by block

A machine keeps a set of positions as a row of blocks, each a word of 64 bits, and works on one
block at a time: the position `p` is the bit `p % 64` of the block `p / 64`. The members of a block
are listed by taking the lowest bit that is set and clearing it until none is left.

- `Block.members`: the loop that clears the lowest bit; `Block.mem_members` and
  `Block.pairwise_members` say what it lists, `Block.length_members` how often it turns.
- `Blocks`: the operations on a row of blocks. What they do is said by `Blocks.contains` alone
  (`contains_insert?`, `contains_union`, `mem_members`, `size_eq_length_members`, `isEmpty_iff`,
  `intersects_iff`, `ext_contains`).
-/

namespace ElementContent

/-- One word of a set: 64 positions in a row. -/
abbrev Block := BitVec 64

namespace Block

variable {b : Block}

/-- The bit at which a position stands in its block. -/
def mask (p : Nat) : Block :=
  1#64 <<< (p % 64)

theorem getLsbD_mask (p i : Nat) : (mask p).getLsbD i = decide (p % 64 = i) := by
  have hp : p % 64 < 64 := Nat.mod_lt p (by decide)
  rw [Bool.eq_iff_iff, mask, BitVec.getLsbD_shiftLeft]
  simp only [BitVec.getLsbD_one, Bool.and_eq_true, decide_eq_true_iff, Bool.not_eq_true',
    decide_eq_false_iff_not]
  omega

theorem ne_zero_iff : b ≠ 0#64 ↔ ∃ i, b.getLsbD i = true := by
  constructor
  · intro h
    refine Classical.byContradiction fun hno => h (BitVec.eq_of_getLsbD_eq fun i _ => ?_)
    rw [BitVec.getLsbD_zero, Bool.eq_false_iff]
    exact fun hi => hno ⟨i, hi⟩
  · rintro ⟨i, hi⟩ rfl
    rw [BitVec.getLsbD_zero] at hi
    exact Bool.false_ne_true hi

/-- The mask of a position picks its bit. -/
theorem and_mask_ne_zero (b : Block) (p : Nat) :
    (b &&& mask p != 0#64) = b.getLsbD (p % 64) := by
  rw [Bool.eq_iff_iff, bne_iff_ne, ne_zero_iff]
  simp [BitVec.getLsbD_and, getLsbD_mask]

/-! ## The lowest bit -/

/-- The lowest bit stands for a multiple of a power of two, which is odd. -/
theorem toNat_eq_of_ctz (h : b ≠ 0#64) : b.toNat =
    2 ^ (b.ctz.toNat + 1) * (b.toNat / 2 ^ (b.ctz.toNat + 1)) + 2 ^ b.ctz.toNat := by
  have hlow : b.toNat % 2 ^ (b.ctz.toNat + 1) = 2 ^ b.ctz.toNat := by
    refine Nat.eq_of_testBit_eq fun i => ?_
    rw [Nat.testBit_mod_two_pow, Nat.testBit_two_pow, BitVec.testBit_toNat]
    rcases Nat.lt_trichotomy i b.ctz.toNat with hi | hi | hi
    · have hne : b.ctz.toNat ≠ i := by omega
      simp [BitVec.getLsbD_false_of_lt_ctz hi, hne]
    · subst hi
      simp [BitVec.getLsbD_true_ctz_of_ne_zero h]
    · have hne : b.ctz.toNat ≠ i := by omega
      have hle : ¬ i < b.ctz.toNat + 1 := by omega
      simp [hne, hle]
  have hdiv := Nat.div_add_mod b.toNat (2 ^ (b.ctz.toNat + 1))
  omega

/-- Taking one away clears the lowest bit, and sets those below it that were not set. -/
theorem getLsbD_and_sub_one (h : b ≠ 0#64) (i : Nat) :
    (b &&& (b - 1#64)).getLsbD i = (b.getLsbD i && i != b.ctz.toNat) := by
  have hsum := toNat_eq_of_ctz h
  generalize b.toNat / 2 ^ (b.ctz.toNat + 1) = q at hsum
  generalize b.ctz.toNat = t at hsum
  have hpos := Nat.two_pow_pos t
  have hlt : 2 ^ t < 2 ^ (t + 1) := Nat.pow_lt_pow_right (by decide) (Nat.lt_succ_self t)
  have hsub : (b - 1#64).toNat = 2 ^ (t + 1) * q + (2 ^ t - 1) := by
    have hone : 1#64 ≤ b := by
      rw [BitVec.le_def]
      show 1 ≤ b.toNat
      omega
    rw [BitVec.toNat_sub_of_le hone]
    show b.toNat - 1 = _
    omega
  rw [← BitVec.testBit_toNat, ← BitVec.testBit_toNat, BitVec.toNat_and, Nat.testBit_and, hsub, hsum,
    Nat.testBit_two_pow_mul_add _ hlt, Nat.testBit_two_pow_mul_add _ (by omega)]
  by_cases hi : i < t + 1
  · simp only [hi, if_true, Nat.testBit_two_pow, Nat.testBit_two_pow_sub_one]
    by_cases hti : t = i
    · simp [hti]
    · simp [hti]
  · have hne : i ≠ t := by omega
    simp [hi, hne]

theorem toNat_and_sub_one_lt (h : b ≠ 0#64) : (b &&& (b - 1#64)).toNat < b.toNat := by
  have hle : (b &&& (b - 1#64)).toNat ≤ b.toNat := by
    rw [BitVec.toNat_and]
    exact Nat.and_le_left
  refine Nat.lt_of_le_of_ne hle fun heq => ?_
  have hbit := getLsbD_and_sub_one h b.ctz.toNat
  rw [BitVec.eq_of_toNat_eq heq, BitVec.getLsbD_true_ctz_of_ne_zero h] at hbit
  simp at hbit

/-- The bits that are set, by clearing the lowest one until none is left. -/
def members (b : Block) : List Nat :=
  if b = 0#64 then [] else b.ctz.toNat :: members (b &&& (b - 1#64))
termination_by b.toNat
decreasing_by exact toNat_and_sub_one_lt ‹_›

theorem mem_members {i : Nat} : i ∈ b.members ↔ b.getLsbD i = true := by
  fun_induction members b with
  | case1 => simp
  | case2 b h ih =>
    rw [List.mem_cons, ih, getLsbD_and_sub_one h, Bool.and_eq_true, bne_iff_ne]
    constructor
    · rintro (rfl | hi)
      · exact BitVec.getLsbD_true_ctz_of_ne_zero h
      · exact hi.1
    · intro hi
      by_cases hctz : i = b.ctz.toNat
      · exact .inl hctz
      · exact .inr ⟨hi, hctz⟩

theorem pairwise_members (b : Block) : b.members.Pairwise (· < ·) := by
  fun_induction members b with
  | case1 => exact .nil
  | case2 b h ih =>
    refine List.pairwise_cons.2 ⟨fun i hi => ?_, ih⟩
    rw [mem_members, getLsbD_and_sub_one h, Bool.and_eq_true, bne_iff_ne] at hi
    -- no bit below the lowest one is set
    refine Nat.lt_of_le_of_ne (Nat.le_of_not_lt fun hlt => ?_) (Ne.symm hi.2)
    rw [BitVec.getLsbD_false_of_lt_ctz hlt] at hi
    exact Bool.false_ne_true hi.1

theorem members_eq_filter (b : Block) : b.members = (List.range 64).filter b.getLsbD := by
  refine PositionSet.eq_of_ascending b.pairwise_members
    (List.Pairwise.filter _ List.pairwise_lt_range) fun i => ?_
  rw [List.mem_filter, List.mem_range, mem_members]
  exact ⟨fun h => ⟨BitVec.lt_of_getLsbD h, h⟩, And.right⟩

theorem cpopNatRec_eq_countP (b : Block) (n : Nat) :
    b.cpopNatRec n 0 = (List.range n).countP b.getLsbD := by
  induction n with
  | zero => rfl
  | succ n ih =>
    rw [BitVec.cpopNatRec_succ, BitVec.cpopNatRec_eq, ih, List.range_succ, List.countP_append]
    cases h : b.getLsbD n <;> simp [h]

/-- The loop takes one turn for each bit that is set. -/
theorem length_members (b : Block) : b.members.length = b.cpop.toNat := by
  rw [members_eq_filter, ← List.countP_eq_length_filter, ← cpopNatRec_eq_countP, BitVec.toNat_cpop]

end Block

/-- A row of blocks, each for the 64 positions after those of the one before. -/
abbrev Blocks := List Block

namespace Blocks

variable {r s t : Blocks}

/-- The row without members that has room for the positions below `capacity`, in whole blocks. -/
def empty (capacity : Nat) : Blocks :=
  List.replicate ((capacity + 63) / 64) 0#64

/-- The row with one more position, if it has the block for it. -/
def insert? (r : Blocks) (p : Nat) : Option Blocks :=
  r[p / 64]?.map fun b => r.set (p / 64) (b ||| Block.mask p)

/-- The row with the members of another, as far as both go. -/
def union : Blocks → Blocks → Blocks
  | b :: r, c :: s => (b ||| c) :: union r s
  | r, _ => r

/-- Whether a position is a member; beyond the row, none is. -/
def contains (r : Blocks) (p : Nat) : Bool :=
  r[p / 64]?.any fun b => b &&& Block.mask p != 0#64

/-- Whether the two rows share a member, as far as both go. -/
def intersects (r s : Blocks) : Bool :=
  (r.zip s).any fun (b, c) => b &&& c != 0#64

/-- Whether all blocks are without members. -/
def isEmpty (r : Blocks) : Bool :=
  r.all (· == 0#64)

/-- The number of bits that are set. -/
def size (r : Blocks) : Nat :=
  (r.map (·.cpop.toNat)).sum

/-- The members of one block after the other. -/
def members (r : Blocks) : List Nat :=
  r.zipIdx.flatMap fun (b, i) => b.members.map (64 * i + ·)

/-! ## What a row contains -/

theorem contains_eq (r : Blocks) (p : Nat) :
    contains r p = r[p / 64]?.any fun b => b.getLsbD (p % 64) := by
  simp only [contains, Block.and_mask_ne_zero]

/-- The bit `j` of the block `i` is the position `64 * i + j`. -/
theorem contains_mul_add {i j : Nat} (hj : j < 64) :
    contains r (64 * i + j) = r[i]?.any fun b => b.getLsbD j := by
  have hdiv : (64 * i + j) / 64 = i := by omega
  have hmod : (64 * i + j) % 64 = j := by omega
  rw [contains_eq, hdiv, hmod]

theorem contains_iff {p : Nat} :
    contains r p = true ↔ ∃ b, r[p / 64]? = some b ∧ b.getLsbD (p % 64) = true := by
  rw [contains_eq, Option.any_eq_true]

/-- Rows of the same length with the same members are the same. -/
theorem ext_contains (hlen : r.length = s.length) (h : ∀ p, contains r p = contains s p) :
    r = s := by
  refine List.ext_getElem hlen fun i hr hs => BitVec.eq_of_getLsbD_eq fun j hj => ?_
  have hbit := h (64 * i + j)
  rwa [contains_mul_add hj, contains_mul_add hj, List.getElem?_eq_getElem hr,
    List.getElem?_eq_getElem hs] at hbit

theorem contains_empty (capacity p : Nat) : contains (empty capacity) p = false := by
  rw [contains_eq, empty, List.getElem?_replicate]
  split <;> simp

/-- A position is inserted if and only if the row has the block for it. -/
theorem exists_insert?_iff {p : Nat} : (∃ t, insert? r p = some t) ↔ p < 64 * r.length := by
  simp only [insert?, Option.map_eq_some_iff]
  constructor
  · rintro ⟨t, b, hb, -⟩
    have := (List.getElem?_eq_some_iff.1 hb).1
    omega
  · intro hp
    have hlt : p / 64 < r.length := by omega
    exact ⟨_, _, List.getElem?_eq_getElem hlt, rfl⟩

theorem length_insert? {p : Nat} (h : insert? r p = some t) : t.length = r.length := by
  obtain ⟨b, -, rfl⟩ := Option.map_eq_some_iff.1 h
  exact List.length_set

theorem contains_insert? {p : Nat} (h : insert? r p = some t) (q : Nat) :
    contains t q = (contains r q || p == q) := by
  obtain ⟨b, hb, rfl⟩ := Option.map_eq_some_iff.1 h
  rw [contains_eq, contains_eq, List.getElem?_set]
  by_cases hdiv : p / 64 = q / 64
  · have hlt := (List.getElem?_eq_some_iff.1 hb).1
    have hmod : (p == q) = decide (p % 64 = q % 64) := by
      rw [Bool.eq_iff_iff, beq_iff_eq, decide_eq_true_iff]
      omega
    rw [if_pos hdiv, if_pos hlt, ← hdiv, hb, hmod]
    simp [Block.getLsbD_mask]
  · have hne : (p == q) = false := beq_eq_false_iff_ne.2 fun hpq => hdiv (hpq ▸ rfl)
    rw [if_neg hdiv, hne, Bool.or_false]

theorem length_union (r s : Blocks) : (union r s).length = r.length := by
  fun_induction union r s with
  | case1 b r c s ih => rw [List.length_cons, List.length_cons, ih]
  | case2 => rfl

theorem getElem?_union (r s : Blocks) (i : Nat) :
    (union r s)[i]? = r[i]?.map fun b => b ||| s[i]?.getD 0#64 := by
  fun_induction union r s generalizing i with
  | case1 b r c s ih => cases i <;> simp [ih]
  | case2 r s h =>
    rcases r with _ | ⟨b, r⟩
    · simp
    · rcases s with _ | ⟨c, s⟩
      · simp
      · exact absurd rfl (h b r c s rfl)

/-- What the other row has beyond the end of this one is lost. -/
theorem contains_union (r s : Blocks) (q : Nat) :
    contains (union r s) q = (contains r q || (decide (q < 64 * r.length) && contains s q)) := by
  rw [contains_eq, contains_eq, contains_eq, getElem?_union]
  by_cases hq : q < 64 * r.length
  · have hlt : q / 64 < r.length := by omega
    rw [List.getElem?_eq_getElem hlt]
    cases s[q / 64]? <;> simp [hq]
  · have hle : r.length ≤ q / 64 := by omega
    rw [List.getElem?_eq_none hle]
    simp [hq]

/-! ## What is read off a row -/

theorem mem_members {p : Nat} : p ∈ members r ↔ contains r p = true := by
  rw [contains_iff]
  simp only [members, List.mem_flatMap, List.mem_map, Prod.exists, List.mk_mem_zipIdx_iff_getElem?,
    Block.mem_members]
  constructor
  · rintro ⟨b, i, hb, j, hj, rfl⟩
    have hlt := BitVec.lt_of_getLsbD hj
    have hdiv : (64 * i + j) / 64 = i := by omega
    have hmod : (64 * i + j) % 64 = j := by omega
    rw [hdiv, hmod]
    exact ⟨b, hb, hj⟩
  · rintro ⟨b, hb, hbit⟩
    exact ⟨b, p / 64, hb, p % 64, hbit, Nat.div_add_mod p 64⟩

theorem pairwise_members (r : Blocks) : (members r).Pairwise (· < ·) := by
  refine List.pairwise_flatMap.2 ⟨fun c _ => ?_, ?_⟩
  · exact List.Pairwise.map _ (fun i j hij => Nat.add_lt_add_left hij _) c.1.pairwise_members
  · have hindex : r.zipIdx.Pairwise fun c d => c.2 < d.2 := by
      rw [← List.pairwise_map (f := Prod.snd) (R := (· < ·)), List.zipIdx_map_snd]
      exact List.pairwise_lt_range'
    refine hindex.imp fun {c d} hcd p hp q hq => ?_
    obtain ⟨i, hi, rfl⟩ := List.mem_map.1 hp
    obtain ⟨j, -, rfl⟩ := List.mem_map.1 hq
    have hlt := BitVec.lt_of_getLsbD (Block.mem_members.1 hi)
    omega

theorem size_eq_length_members (r : Blocks) : size r = (members r).length := by
  have hblocks : r.map (·.cpop.toNat) =
      r.zipIdx.map fun c => (c.1.members.map (64 * c.2 + ·)).length := by
    simp only [List.length_map, Block.length_members]
    exact (congrArg (List.map _) (List.zipIdx_map_fst 0 r)).symm.trans List.map_map
  rw [size, hblocks, members, List.length_flatMap]

theorem isEmpty_iff : isEmpty r = true ↔ ∀ p, contains r p = false := by
  simp only [isEmpty, List.all_eq_true, beq_iff_eq]
  constructor
  · intro h p
    refine Bool.eq_false_iff.2 fun hp => ?_
    obtain ⟨b, hb, hbit⟩ := contains_iff.1 hp
    exact Block.ne_zero_iff.2 ⟨_, hbit⟩ (h b (List.mem_of_getElem? hb))
  · intro h b hb
    obtain ⟨i, hi⟩ := List.mem_iff_getElem?.1 hb
    refine Decidable.byContradiction fun hne => ?_
    obtain ⟨j, hj⟩ := Block.ne_zero_iff.1 hne
    have hbit := h (64 * i + j)
    rw [contains_mul_add (BitVec.lt_of_getLsbD hj), hi] at hbit
    exact Bool.false_ne_true (hbit.symm.trans hj)

theorem intersects_iff :
    intersects r s = true ↔ ∃ p, contains r p = true ∧ contains s p = true := by
  simp only [intersects, List.any_eq_true, Prod.exists, List.mem_iff_getElem?,
    List.getElem?_zip_eq_some, bne_iff_ne, Block.ne_zero_iff, BitVec.getLsbD_and, Bool.and_eq_true]
  constructor
  · rintro ⟨b, c, ⟨i, hb, hc⟩, j, hbj, hcj⟩
    have hlt := BitVec.lt_of_getLsbD hbj
    refine ⟨64 * i + j, ?_, ?_⟩
    · rw [contains_mul_add hlt, hb]
      exact hbj
    · rw [contains_mul_add hlt, hc]
      exact hcj
  · rintro ⟨p, hr, hs⟩
    obtain ⟨b, hb, hbp⟩ := contains_iff.1 hr
    obtain ⟨c, hc, hcp⟩ := contains_iff.1 hs
    exact ⟨b, c, ⟨p / 64, hb, hc⟩, p % 64, hbp, hcp⟩

end Blocks

end ElementContent
