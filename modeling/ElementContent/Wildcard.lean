import ElementContent.Name.Symbol

/-!
# Wildcards

A *wildcard* admits child elements by their namespace alone.

- `NamespaceSet`: a finite set of namespace ids, kept as a strictly ascending list, so that equal
  sets are equal as values.
- `Wildcard.allows`: the namespaces a wildcard admits.
- `Wildcard.disjoint`: no namespace is admitted by both. It is decided without looking through all
  ids: two wildcards that each leave out only finitely many namespaces are taken to meet.
-/

namespace ElementContent

/-- A finite set of namespace ids. -/
structure NamespaceSet where
  /-- The ids, ascending. -/
  ids : List NamespaceId
  /-- Each id is less than those after it. -/
  ascending : ids.Pairwise (· < ·)
  deriving DecidableEq, Repr

namespace NamespaceSet

/-- Puts an id in its place in an ascending list, unless it is there. -/
def insertInto (id : NamespaceId) : List NamespaceId → List NamespaceId
  | [] => [id]
  | x :: xs =>
    if id < x then id :: x :: xs
    else if id = x then x :: xs
    else x :: insertInto id xs

theorem mem_insertInto {id x : NamespaceId} {xs : List NamespaceId} :
    x ∈ insertInto id xs ↔ x = id ∨ x ∈ xs := by
  induction xs with
  | nil => simp [insertInto]
  | cons y ys ih => grind [insertInto]

theorem pairwise_insertInto {id : NamespaceId} {xs : List NamespaceId}
    (h : xs.Pairwise (· < ·)) : (insertInto id xs).Pairwise (· < ·) := by
  induction xs with
  | nil => simp [insertInto]
  | cons y ys ih =>
    obtain ⟨hy, hys⟩ := List.pairwise_cons.1 h
    unfold insertInto
    split
    · next hlt =>
      refine List.pairwise_cons.2 ⟨fun z hz => ?_, h⟩
      rcases List.mem_cons.1 hz with rfl | hz
      · exact hlt
      · exact UInt32.lt_trans hlt (hy z hz)
    · next hge =>
      split
      · exact h
      · next hne =>
        refine List.pairwise_cons.2 ⟨fun z hz => ?_, ih hys⟩
        rcases mem_insertInto.1 hz with rfl | hz
        · have hle : y ≤ z := UInt32.not_lt.1 hge
          exact UInt32.lt_of_le_of_ne hle fun e => hne e.symm
        · exact hy z hz

/-- The set without ids. -/
def empty : NamespaceSet := ⟨[], .nil⟩

/-- The set with one more id. -/
def insert (s : NamespaceSet) (id : NamespaceId) : NamespaceSet :=
  ⟨insertInto id s.ids, pairwise_insertInto s.ascending⟩

/-- The set of the ids in a list. -/
def ofList (ids : List NamespaceId) : NamespaceSet :=
  ids.foldl insert empty

/-- Whether an id is in the set. -/
def contains (s : NamespaceSet) (id : NamespaceId) : Bool :=
  s.ids.contains id

@[simp] theorem contains_empty (id : NamespaceId) : empty.contains id = false := rfl

@[simp] theorem contains_insert (s : NamespaceSet) (id x : NamespaceId) :
    (s.insert id).contains x = (x == id || s.contains x) := by
  rw [Bool.eq_iff_iff]
  simp [contains, insert, mem_insertInto]

end NamespaceSet

/-- What a wildcard asks of the namespace of a child. -/
inductive Wildcard where
  /-- Any namespace, or none. -/
  | any
  /-- Some namespace, other than the target. -/
  | other (target : NamespaceId)
  /-- A listed namespace. -/
  | oneOf (ids : NamespaceSet)
  /-- A namespace, or none, that is not listed. -/
  | noneOf (ids : NamespaceSet)
  deriving DecidableEq, Repr

namespace Wildcard

/-- Whether a child in the namespace is admitted. -/
def allows (w : Wildcard) (space : NamespaceId) : Bool :=
  match w with
  | any => true
  | other target => space != NamespaceId.absent && space != target
  | oneOf ids => ids.contains space
  | noneOf ids => !ids.contains space

/-- Whether the two admit no namespace in common. A list is searched id by id; two wildcards without
a list of admitted ids are never disjoint. -/
def disjoint (w v : Wildcard) : Bool :=
  match w, v with
  | oneOf ids, v => ids.ids.all fun id => !v.allows id
  | w, oneOf ids => ids.ids.all fun id => !w.allows id
  | _, _ => false

/-- Whether a namespace is admitted that the wildcard does not name. -/
def allowsForeign : Wildcard → Bool
  | oneOf _ => false
  | _ => true

/-- The namespaces that the wildcard names. -/
def mentioned : Wildcard → List NamespaceId
  | any => []
  | other target => [target]
  | oneOf ids | noneOf ids => ids.ids

/-- The ids of a set in brackets, with a space between them. -/
def renderIds (s : NamespaceSet) : String :=
  "[" ++ " ".intercalate (s.ids.map fun id => toString id.toNat) ++ "]"

/-- The text of a wildcard. -/
def render : Wildcard → String
  | any => "##any"
  | other target => s!"##other({target.toNat})"
  | oneOf ids => renderIds ids
  | noneOf ids => "not" ++ renderIds ids

end Wildcard

end ElementContent
