/-!
# Sets of positions

A *position* is the number of a leaf that takes a child. A set of positions has room for a fixed
number of 64-bit words, and the members are the bits that are set.

- `PositionSet.insert?`: adds a position for which there is room; `insert` leaves the set as it is
  where there is none.
- `PositionSet.union`: adds the members of another set for which there is room.
- `PositionSet.members`: the members in ascending order.

Two sets are equal if they have the same room and the same members (`PositionSet.ext_contains`), so
a set can stand for a state.
-/

namespace ElementContent

/-- A set of positions below `64 * words`. -/
structure PositionSet where
  /-- How many words of 64 positions there is room for. -/
  words : Nat
  /-- The members, as the bits of a number. -/
  bits : Nat
  /-- Every member is below the room. -/
  bits_lt : bits < 1 <<< (64 * words)
  deriving DecidableEq, Repr

namespace PositionSet

/-- A prime below the word size; numbers are hashed by their remainder. -/
def hashModulus : Nat := 2305843009213693951

instance : Hashable PositionSet where
  hash s := hash (s.bits % hashModulus)

/-- The first position for which a set has no room. -/
def room (s : PositionSet) : Nat :=
  64 * s.words

/-- The set without members that has room for the positions below `capacity`, in whole words. -/
def empty (capacity : Nat) : PositionSet :=
  ⟨(capacity + 63) / 64, 0, by
    rw [Nat.one_shiftLeft]
    exact Nat.two_pow_pos _⟩

/-- Whether a position is a member. -/
def contains (s : PositionSet) (p : Nat) : Bool :=
  s.bits.testBit p

theorem or_lt_one_shiftLeft {a b n : Nat} (ha : a < 1 <<< n) (hb : b < 1 <<< n) :
    a ||| b < 1 <<< n := by
  rw [Nat.one_shiftLeft] at *
  exact Nat.or_lt_two_pow ha hb

/-- The set with one more position, for which there is room. -/
def insertWithin (s : PositionSet) (p : Nat) (h : p < s.room) : PositionSet :=
  ⟨s.words, s.bits ||| 1 <<< p, or_lt_one_shiftLeft s.bits_lt (by
    rw [Nat.one_shiftLeft, Nat.one_shiftLeft]
    exact Nat.pow_lt_pow_right (by decide) h)⟩

/-- The set with one more position, if there is room for it. -/
def insert? (s : PositionSet) (p : Nat) : Option PositionSet :=
  if h : p < s.room then some (s.insertWithin p h) else none

/-- The set with one more position; unchanged if there is no room for it. -/
def insert (s : PositionSet) (p : Nat) : PositionSet :=
  (s.insert? p).getD s

/-- The set of one position, if a set for `capacity` positions has room for it. -/
def singleton? (capacity p : Nat) : Option PositionSet :=
  (empty capacity).insert? p

/-- The set of one position, with room for `capacity` positions. -/
def singleton (capacity p : Nat) : PositionSet :=
  (empty capacity).insert p

/-- The members below `64 * words`, as bits. -/
def bitsWithin (s : PositionSet) (words : Nat) : Nat :=
  if s.words ≤ words then s.bits else s.bits % (1 <<< (64 * words))

theorem bitsWithin_eq_mod (s : PositionSet) (words : Nat) :
    s.bitsWithin words = s.bits % (1 <<< (64 * words)) := by
  unfold bitsWithin
  split
  · next h =>
    refine (Nat.mod_eq_of_lt (Nat.lt_of_lt_of_le s.bits_lt ?_)).symm
    rw [Nat.one_shiftLeft, Nat.one_shiftLeft]
    exact Nat.pow_le_pow_right (by decide) (Nat.mul_le_mul_left 64 h)
  · rfl

/-- The set with those members of another set for which it has room. -/
def union (s t : PositionSet) : PositionSet :=
  ⟨s.words, s.bits ||| t.bitsWithin s.words, or_lt_one_shiftLeft s.bits_lt (by
    rw [bitsWithin_eq_mod, Nat.one_shiftLeft]
    exact Nat.mod_lt _ (Nat.two_pow_pos _))⟩

/-- Whether the two sets share a member. -/
def intersects (s t : PositionSet) : Bool :=
  s.bits &&& t.bits != 0

/-- Whether the set has no members. -/
def isEmpty (s : PositionSet) : Bool :=
  s.bits == 0

/-- The positions from `base` on that the bits of one word stand for, ascending. -/
def wordMembers (base word : Nat) : List Nat :=
  if word = 0 then [] else ((List.range 64).filter word.testBit).map (base + ·)

/-- The positions from `base` on that the bits of so many doublings of a word stand for, ascending.
The bits are halved down to single words, so that long stretches without members cost nothing. -/
def membersFrom : Nat → Nat → Nat → List Nat
  | 0, base, bits => wordMembers base bits
  | n + 1, base, bits =>
    if bits = 0 then []
    else
      membersFrom n base (bits % (1 <<< (64 <<< n))) ++
        membersFrom n (base + (64 <<< n)) (bits >>> (64 <<< n))

/-- The members, ascending. -/
def members (s : PositionSet) : List Nat :=
  membersFrom (s.words.log2 + 1) 0 s.bits

/-- The number of members. -/
def size (s : PositionSet) : Nat :=
  s.members.length

/-- The members between braces. -/
def render (s : PositionSet) : String :=
  "\x7b" ++ ", ".intercalate (s.members.map toString) ++ "\x7d"

/-! ## Membership -/

theorem lt_room_of_contains {s : PositionSet} {p : Nat} (h : s.contains p = true) : p < s.room := by
  refine Decidable.byContradiction fun hp => ?_
  have hlt : s.bits < 2 ^ p := by
    have hbits := s.bits_lt
    rw [Nat.one_shiftLeft] at hbits
    exact Nat.lt_of_lt_of_le hbits (Nat.pow_le_pow_right (by decide) (Nat.le_of_not_lt hp))
  simp [contains, Nat.testBit_lt_two_pow hlt] at h

@[simp] theorem contains_empty (capacity p : Nat) : (empty capacity).contains p = false := by
  simp [contains, empty]

theorem le_room_empty (capacity : Nat) : capacity ≤ (empty capacity).room := by
  simp only [room, empty]
  omega

theorem contains_insertWithin {s : PositionSet} {p : Nat} (h : p < s.room) (q : Nat) :
    (s.insertWithin p h).contains q = (s.contains q || p == q) := by
  rw [Bool.eq_iff_iff]
  simp [contains, insertWithin, Nat.one_shiftLeft, Nat.testBit_two_pow]

theorem contains_insert {s : PositionSet} {p : Nat} (h : p < s.room) (q : Nat) :
    (s.insert p).contains q = (s.contains q || p == q) := by
  simp [insert, insert?, h, contains_insertWithin]

theorem contains_union (s t : PositionSet) (q : Nat) :
    (s.union t).contains q = (s.contains q || (decide (q < s.room) && t.contains q)) := by
  rw [Bool.eq_iff_iff]
  simp [contains, union, bitsWithin_eq_mod, Nat.one_shiftLeft, Nat.testBit_mod_two_pow]
  rfl

theorem mem_wordMembers {base word p : Nat} (h : word < 1 <<< 64) :
    p ∈ wordMembers base word ↔ base ≤ p ∧ word.testBit (p - base) = true := by
  unfold wordMembers
  split
  · next h0 => simp [h0]
  · rw [List.mem_map]
    constructor
    · rintro ⟨j, hj, rfl⟩
      rw [Nat.add_sub_cancel_left]
      exact ⟨Nat.le_add_right base j, (List.mem_filter.1 hj).2⟩
    · rintro ⟨hp, hbit⟩
      have hlt : p - base < 64 := by
        refine Nat.lt_of_not_le fun hle => ?_
        rw [Nat.one_shiftLeft] at h
        have hlt := Nat.lt_of_lt_of_le h (Nat.pow_le_pow_right (by decide) hle)
        rw [Nat.testBit_lt_two_pow hlt] at hbit
        cases hbit
      exact ⟨p - base, List.mem_filter.2 ⟨List.mem_range.2 hlt, hbit⟩, Nat.add_sub_cancel' hp⟩

/-- The lower half of the bits and the upper half fit into half the room. -/
theorem halves_lt {n bits : Nat} (h : bits < 1 <<< (64 <<< (n + 1))) :
    bits % (1 <<< (64 <<< n)) < 1 <<< (64 <<< n) ∧ bits >>> (64 <<< n) < 1 <<< (64 <<< n) := by
  refine ⟨Nat.mod_lt _ (by rw [Nat.one_shiftLeft]; exact Nat.two_pow_pos _), ?_⟩
  have hdouble : 64 <<< (n + 1) = 64 <<< n + 64 <<< n := by
    rw [Nat.shiftLeft_succ, Nat.two_mul]
  rw [hdouble, Nat.one_shiftLeft, Nat.pow_add] at h
  rw [Nat.shiftRight_eq_div_pow, Nat.one_shiftLeft]
  exact Nat.div_lt_of_lt_mul h

theorem mem_membersFrom {n base bits p : Nat} (h : bits < 1 <<< (64 <<< n)) :
    p ∈ membersFrom n base bits ↔ base ≤ p ∧ bits.testBit (p - base) = true := by
  induction n generalizing base bits with
  | zero => exact mem_wordMembers h
  | succ n ih =>
    obtain ⟨hlow, hhigh⟩ := halves_lt h
    unfold membersFrom
    split
    · next h0 => simp [h0]
    · rw [List.mem_append, ih hlow, ih hhigh, Nat.one_shiftLeft, Nat.testBit_mod_two_pow,
        Nat.testBit_shiftRight, Bool.and_eq_true, decide_eq_true_iff]
      by_cases hp : p - base < 64 <<< n
      · have hno : ¬ base + 64 <<< n ≤ p := by omega
        simp [hp, hno]
      · by_cases hb : base ≤ p
        · have hle : base + 64 <<< n ≤ p := by omega
          have hsum : 64 <<< n + (p - (base + 64 <<< n)) = p - base := by omega
          simp [hp, hb, hle, hsum]
        · have hno : ¬ base + 64 <<< n ≤ p := fun h => hb (Nat.le_trans (Nat.le_add_right _ _) h)
          simp [hb, hno]

/-- The halving of the members starts with enough room for all of them. -/
theorem bits_lt_levels (s : PositionSet) : s.bits < 1 <<< (64 <<< (s.words.log2 + 1)) := by
  refine Nat.lt_of_lt_of_le s.bits_lt ?_
  have hwords : s.words ≤ 2 ^ (s.words.log2 + 1) := Nat.le_of_lt Nat.lt_log2_self
  rw [Nat.one_shiftLeft, Nat.one_shiftLeft, Nat.shiftLeft_eq]
  exact Nat.pow_le_pow_right (by decide) (Nat.mul_le_mul_left 64 hwords)

@[simp] theorem mem_members {s : PositionSet} {p : Nat} : p ∈ s.members ↔ s.contains p = true := by
  rw [members, mem_membersFrom s.bits_lt_levels, Nat.sub_zero]
  exact and_iff_right (Nat.zero_le p)

/-- Sets with the same room and the same members are equal. -/
theorem ext_contains {s t : PositionSet} (hw : s.words = t.words)
    (h : ∀ p, s.contains p = t.contains p) : s = t := by
  obtain ⟨w, a, ha⟩ := s
  obtain ⟨v, b, hb⟩ := t
  obtain rfl : w = v := hw
  obtain rfl : a = b := Nat.eq_of_testBit_eq h
  rfl

end PositionSet

end ElementContent
