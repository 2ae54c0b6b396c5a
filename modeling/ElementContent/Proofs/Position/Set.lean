import ElementContent.Position.Set

/-!
# Sets of positions, by their members

A set of positions is known by its room and its members. The sets of one analysis all have the same
room, so none of its operations loses a member.

- `PositionSet.insert?_eq`: a position for which there is room can be added.
- `PositionSet.contains_union_of_words`: a union loses nothing between sets of the same room.
- `PositionSet.pairwise_members`: the members are listed in ascending order, so the list is known
  from the set (`PositionSet.eq_of_ascending`).
-/

namespace ElementContent

namespace PositionSet

/-- A position is added if there is room for it. -/
theorem insert?_eq {s : PositionSet} {p : Nat} (h : p < s.room) :
    s.insert? p = some (s.insert p) := by
  rw [insert, insert?, dif_pos h, Option.getD_some]

theorem singleton?_eq {capacity p : Nat} (h : p < capacity) :
    singleton? capacity p = some (singleton capacity p) :=
  insert?_eq (Nat.lt_of_lt_of_le h (le_room_empty capacity))

theorem contains_singleton {capacity p : Nat} (h : p < capacity) (q : Nat) :
    (singleton capacity p).contains q = true ↔ p = q := by
  have hroom : p < (empty capacity).room := Nat.lt_of_lt_of_le h (le_room_empty capacity)
  rw [singleton, contains_insert hroom, contains_empty, Bool.false_or, beq_iff_eq]

@[simp] theorem words_empty (capacity : Nat) : (empty capacity).words = (capacity + 63) / 64 :=
  rfl

@[simp] theorem words_insert (s : PositionSet) (p : Nat) : (s.insert p).words = s.words := by
  unfold insert insert?
  split <;> rfl

@[simp] theorem words_singleton (capacity p : Nat) :
    (singleton capacity p).words = (capacity + 63) / 64 :=
  words_insert _ p

@[simp] theorem words_union (s t : PositionSet) : (s.union t).words = s.words :=
  rfl

/-- A union has room for the members of a set of the same room. -/
theorem contains_union_of_words {s t : PositionSet} (h : t.words = s.words) (q : Nat) :
    (s.union t).contains q = true ↔ s.contains q = true ∨ t.contains q = true := by
  rw [contains_union, Bool.or_eq_true, Bool.and_eq_true, decide_eq_true_iff]
  refine or_congr_right ⟨fun hq => hq.2, fun hq => ⟨?_, hq⟩⟩
  rw [room, ← h]
  exact lt_room_of_contains hq

theorem isEmpty_iff {s : PositionSet} : s.isEmpty = true ↔ ∀ p, s.contains p = false := by
  rw [isEmpty, beq_iff_eq]
  constructor
  · intro h p
    rw [contains, h, Nat.zero_testBit]
  · intro h
    refine Nat.eq_of_testBit_eq ?_
    intro p
    rw [Nat.zero_testBit]
    exact h p

/-- A set has a member if it is not empty. -/
theorem exists_contains_of_not_isEmpty {s : PositionSet} (h : s.isEmpty = false) :
    ∃ p, s.contains p = true := by
  refine Classical.byContradiction ?_
  intro hno
  have : s.isEmpty = true := isEmpty_iff.2 fun p => by
    rw [Bool.eq_false_iff]
    exact fun hp => hno ⟨p, hp⟩
  rw [h] at this
  cases this

/-! ## The list of members -/

theorem pairwise_membersFrom {n base bits : Nat} (h : bits < 1 <<< (64 <<< n)) :
    (membersFrom n base bits).Pairwise (· < ·) := by
  induction n generalizing base bits with
  | zero =>
    show (wordMembers base bits).Pairwise (· < ·)
    unfold wordMembers
    split
    · exact .nil
    · refine List.Pairwise.map _ (fun a b hab => Nat.add_lt_add_left hab _) ?_
      exact List.Pairwise.filter _ List.pairwise_lt_range
  | succ n ih =>
    obtain ⟨hlow, hhigh⟩ := halves_lt h
    unfold membersFrom
    split
    · exact .nil
    · refine List.pairwise_append.2 ⟨ih hlow, ih hhigh, ?_⟩
      -- a member of the lower half is below the place where the upper half starts
      intro p hp q hq
      have hq := ((mem_membersFrom hhigh).1 hq).1
      have hbit := ((mem_membersFrom hlow).1 hp).2
      rw [Nat.one_shiftLeft, Nat.testBit_mod_two_pow, Bool.and_eq_true, decide_eq_true_iff] at hbit
      omega

theorem pairwise_members (s : PositionSet) : s.members.Pairwise (· < ·) :=
  pairwise_membersFrom s.bits_lt_levels

/-- An ascending list is known from its members. -/
theorem eq_of_ascending {l l' : List Nat} (hl : l.Pairwise (· < ·)) (hl' : l'.Pairwise (· < ·))
    (h : ∀ p, p ∈ l ↔ p ∈ l') : l = l' := by
  refine List.Perm.eq_of_pairwise (fun a b _ _ hab hba => absurd hba (by omega)) hl hl' ?_
  have hn : l.Nodup := hl.imp fun hab => Nat.ne_of_lt hab
  have hn' : l'.Nodup := hl'.imp fun hab => Nat.ne_of_lt hab
  exact (List.perm_ext_iff_of_nodup hn hn').2 h

end PositionSet

end ElementContent
