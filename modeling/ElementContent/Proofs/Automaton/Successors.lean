import ElementContent.Automaton.Subset
import ElementContent.Proofs.Position.Analysis

/-!
# The successors of a set of positions

One step of the subset construction collects, for each class, what may come after the positions that
take it. With the mark of the end behind every word, the positions of a set and the end are treated
alike: all of them are letters of the *ended* words.

- `Analysis.ended`: the words of positions, each with the mark of the end behind it.
- `Analysis.contains_startSet`, `Analysis.contains_followSet`: the sets that the construction starts
  with hold the letters that begin an ended word and that come directly after a position.
- `Describes`: what a table of targets holds. `describes_successors` says it of the table that
  `successors` makes.
-/

namespace ElementContent

/-! ## The mark of the end -/

namespace Analysis

/-- The words of positions, with the mark of the end behind each. -/
def ended (a : Analysis) (t : Tree) : Language Nat :=
  .append (t.marked a.positionOf?) (.letter a.leaves.size)

variable {t : Tree} {a : Analysis}

theorem words_widened (s : PositionSet) : (a.widened s).words = (a.leaves.size + 1 + 63) / 64 :=
  rfl

/-- A set of positions loses nothing when it is given room for the mark of the end. -/
theorem contains_widened {s : PositionSet} (hs : s.words = (a.leaves.size + 63) / 64) (q : Nat) :
    (a.widened s).contains q = true ↔ s.contains q = true := by
  rw [widened, PositionSet.contains_union, PositionSet.contains_empty, Bool.false_or,
    Bool.and_eq_true, decide_eq_true_iff]
  refine ⟨fun h => h.2, fun h => ⟨?_, h⟩⟩
  have hq := PositionSet.lt_room_of_contains h
  rw [PositionSet.room, hs] at hq
  rw [PositionSet.room, PositionSet.words_empty]
  omega

/-- The set with the mark of the end, if that is to be added. -/
theorem contains_withEnd {s : PositionSet} (hs : s.words = (a.leaves.size + 63) / 64)
    (ends : Bool) (q : Nat) :
    (if ends then (a.widened s).insert a.leaves.size else a.widened s).contains q = true ↔
      s.contains q = true ∨ ends = true ∧ q = a.leaves.size := by
  cases ends with
  | false => simp [contains_widened hs]
  | true =>
    have hroom : a.leaves.size < (a.widened s).room := by
      rw [PositionSet.room, words_widened]
      omega
    rw [if_pos rfl, PositionSet.contains_insert hroom, Bool.or_eq_true, beq_iff_eq,
      contains_widened hs]
    rw [eq_self_iff_true, true_and, @eq_comm _ q]

theorem words_withEnd (s : PositionSet) (ends : Bool) :
    (if ends then (a.widened s).insert a.leaves.size else a.widened s).words =
      (a.leaves.size + 1 + 63) / 64 := by
  cases ends <;> simp [words_widened]

theorem words_startSet : a.startSet.words = (a.leaves.size + 1 + 63) / 64 :=
  words_withEnd a.first a.nullable

theorem words_followSet (p : Nat) (s : PositionSet) :
    (a.followSet p s).words = (a.leaves.size + 1 + 63) / 64 :=
  words_withEnd s (a.last.contains p)

/-- The first set holds the letters that begin an ended word. -/
theorem contains_startSet (h : a.IsExact t) (q : Nat) :
    a.startSet.contains q = true ↔ (a.ended t).Begins q := by
  rw [startSet, contains_withEnd h.words_first, h.first_iff, h.nullable_iff, ended,
    Language.begins_append (Language.exists_letter _), Language.begins_letter]

/-- The set of a position holds the letters that come directly after it in an ended word. -/
theorem contains_followSet (h : a.IsExact t) {p : Nat} {s : PositionSet}
    (hs : a.follow[p]? = some s) (q : Nat) :
    (a.followSet p s).contains q = true ↔ (a.ended t).Adjacent p q := by
  obtain ⟨hwords, hiff⟩ := h.follow_iff hs
  rw [followSet, contains_withEnd hwords, h.last_iff, hiff, ended,
    Language.adjacent_append (Tree.exists_marked _ t) (Language.exists_letter _),
    Language.begins_letter]
  simp only [Language.not_adjacent_letter, false_or]

end Analysis

/-! ## Moves -/

theorem mem_classesTaken {classes : List InputClass} {t : Term} {c : Nat} :
    c ∈ t.classesTaken classes ↔ ∃ cls, classes[c]? = some cls ∧ t.takes cls = true := by
  simp only [Term.classesTaken, List.mem_filterMap, Prod.exists, List.mk_mem_zipIdx_iff_getElem?]
  constructor
  · rintro ⟨cls, i, hi, htakes⟩
    split at htakes
    · next h =>
      obtain rfl := Option.some.inj htakes
      exact ⟨cls, hi, h⟩
    · cases htakes
  · rintro ⟨cls, hc, h⟩
    exact ⟨cls, c, hc, by rw [if_pos h]⟩

theorem Analysis.getElem?_moves {a : Analysis} {classes : List InputClass} {p : Nat} {m : Move} :
    (a.moves classes)[p]? = some m ↔ ∃ leaf s, a.leaves[p]? = some leaf ∧ a.follow[p]? = some s ∧
      m = ⟨leaf.term.classesTaken classes, a.followSet p s⟩ := by
  rw [moves, Array.getElem?_mapIdx, Option.map_eq_some_iff]
  constructor
  · rintro ⟨⟨leaf, s⟩, hp, rfl⟩
    obtain ⟨hleaf, hs⟩ := Array.getElem?_zip_eq_some.1 hp
    exact ⟨leaf, s, hleaf, hs, rfl⟩
  · rintro ⟨leaf, s, hleaf, hs, rfl⟩
    exact ⟨(leaf, s), Array.getElem?_zip_eq_some.2 ⟨hleaf, hs⟩, rfl⟩

/-! ## The table of targets -/

/-- What a table of targets holds: sets with room for the capacity, for some of the classes, and in
the set of class `c` the positions `q` with `P c q`. -/
structure Describes (capacity count : Nat) (targets : Array (Option PositionSet))
    (P : Nat → Nat → Prop) : Prop where
  size_eq : targets.size = count
  words_eq : ∀ {c : Nat} {s : PositionSet}, targets[c]? = some (some s) →
    s.words = (capacity + 63) / 64
  holds_iff : ∀ {c : Nat}, c < count → ∀ q : Nat,
    (∃ s, targets[c]? = some (some s) ∧ s.contains q = true) ↔ P c q

variable {capacity count : Nat} {targets : Array (Option PositionSet)} {P Q : Nat → Nat → Prop}

theorem Describes.congr (h : Describes capacity count targets P) (hPQ : ∀ c q, P c q ↔ Q c q) :
    Describes capacity count targets Q where
  size_eq := h.size_eq
  words_eq := h.words_eq
  holds_iff hc q := (h.holds_iff hc q).trans (hPQ _ q)

theorem describes_replicate :
    Describes capacity count (.replicate count none) fun _ _ => False where
  size_eq := Array.size_replicate
  words_eq h := by simp [Array.getElem?_replicate] at h
  holds_iff hc q := by simp [Array.getElem?_replicate]

/-- A class takes on the members of a set. -/
theorem describes_modify (h : Describes capacity count targets P) {next : PositionSet}
    (hnext : next.words = (capacity + 63) / 64) (cls : Nat) :
    Describes capacity count
      (targets.modify cls fun t => some ((t.getD (.empty capacity)).union next))
      fun c q => P c q ∨ c = cls ∧ next.contains q = true := by
  -- a class that has no target yet starts from an empty set of the same room
  have hold : ∀ o : Option PositionSet, targets[cls]? = some o →
      (o.getD (.empty capacity)).words = (capacity + 63) / 64 := by
    intro o ho
    cases o with
    | none => rfl
    | some s => exact h.words_eq ho
  refine ⟨by rw [Array.size_modify, h.size_eq], fun {c s} hs => ?_, fun {c} hc q => ?_⟩
  · rw [Array.getElem?_modify] at hs
    by_cases hcls : cls = c
    · subst hcls
      rw [if_pos rfl] at hs
      obtain ⟨o, ho, hos⟩ := Option.map_eq_some_iff.1 hs
      obtain rfl := Option.some.inj hos
      exact hold o ho
    · rw [if_neg hcls] at hs
      exact h.words_eq hs
  · rw [Array.getElem?_modify]
    by_cases hcls : cls = c
    · subst hcls
      obtain ⟨o, ho⟩ : ∃ o, targets[cls]? = some o :=
        ⟨_, Array.getElem?_eq_getElem (h.size_eq ▸ hc)⟩
      rw [if_pos rfl, ho, ← h.holds_iff hc, ho]
      have hunion := PositionSet.contains_union_of_words (hnext.trans (hold o ho).symm) q
      cases o with
      | none => simpa using hunion
      | some s => simpa using hunion
    · rw [if_neg hcls, h.holds_iff hc]
      have : c ≠ cls := fun hc => hcls hc.symm
      simp [this]

theorem describes_addMove (h : Describes capacity count targets P) {m : Move}
    (hm : m.next.words = (capacity + 63) / 64) :
    Describes capacity count (addMove capacity targets m)
      fun c q => P c q ∨ c ∈ m.classes ∧ m.next.contains q = true := by
  unfold addMove
  induction m.classes generalizing targets P with
  | nil => exact h.congr fun c q => by simp
  | cons cls rest ih =>
    refine (ih (describes_modify h hm cls)).congr ?_
    intro c q
    rw [List.mem_cons]
    grind

theorem describes_foldl_addMove (ms : List Move) (h : Describes capacity count targets P)
    (hms : ∀ m ∈ ms, m.next.words = (capacity + 63) / 64) :
    Describes capacity count (ms.foldl (addMove capacity) targets)
      fun c q => P c q ∨ ∃ m ∈ ms, c ∈ m.classes ∧ m.next.contains q = true := by
  induction ms generalizing targets P with
  | nil => exact h.congr fun c q => by simp
  | cons m ms ih =>
    have hm := describes_addMove h (hms m List.mem_cons_self)
    refine (ih hm fun m' hm' => hms m' (List.mem_cons_of_mem m hm')).congr ?_
    intro c q
    rw [List.exists_mem_cons_iff, or_assoc]

/-- The positions and the end mark that a class leads to from a set: they come directly after a
position of the set that takes the class. -/
def Analysis.Leads (a : Analysis) (t : Tree) (classes : List InputClass) (s : PositionSet)
    (c q : Nat) : Prop :=
  ∃ p leaf cls, s.contains p = true ∧ a.leaves[p]? = some leaf ∧ classes[c]? = some cls ∧
    leaf.term.takes cls = true ∧ (a.ended t).Adjacent p q

/-- The successors of a set are what its positions lead to. -/
theorem describes_successors {t : Tree} {a : Analysis} (h : a.IsExact t)
    (classes : List InputClass) (s : PositionSet) :
    Describes (a.leaves.size + 1) classes.length (successors (a.moves classes) classes.length s)
      (a.Leads t classes s) := by
  have hsize : (a.moves classes).size = a.leaves.size := by
    simp [Analysis.moves, h.size_follow]
  show Describes _ _ ((s.members.filterMap ((a.moves classes)[·]?)).foldl
    (addMove ((a.moves classes).size + 1)) (.replicate classes.length none)) _
  rw [hsize]
  refine (describes_foldl_addMove _ describes_replicate ?_).congr fun c q => ?_
  · intro m hm
    obtain ⟨p, -, hp⟩ := List.mem_filterMap.1 hm
    obtain ⟨leaf, f, -, -, rfl⟩ := Analysis.getElem?_moves.1 hp
    exact Analysis.words_followSet p f
  · rw [false_or]
    constructor
    · rintro ⟨m, hm, hc, hq⟩
      obtain ⟨p, hps, hp⟩ := List.mem_filterMap.1 hm
      obtain ⟨leaf, f, hleaf, hf, rfl⟩ := Analysis.getElem?_moves.1 hp
      obtain ⟨cls, hcls, htakes⟩ := mem_classesTaken.1 hc
      exact ⟨p, leaf, cls, PositionSet.mem_members.1 hps, hleaf, hcls, htakes,
        (Analysis.contains_followSet h hf q).1 hq⟩
    · rintro ⟨p, leaf, cls, hps, hleaf, hcls, htakes, hpq⟩
      have hlt : p < a.follow.size := h.size_follow ▸ (Array.getElem?_eq_some_iff.1 hleaf).1
      have hf := Array.getElem?_eq_getElem hlt
      exact ⟨_, List.mem_filterMap.2 ⟨p, PositionSet.mem_members.2 hps,
          Analysis.getElem?_moves.2 ⟨leaf, _, hleaf, hf, rfl⟩⟩,
        mem_classesTaken.2 ⟨cls, hcls, htakes⟩, (Analysis.contains_followSet h hf q).2 hpq⟩

end ElementContent
