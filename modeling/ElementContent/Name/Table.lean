import ElementContent.Name.Expanded

/-!
# Interning names

A *pool* gives each text a number, its place in the order of first appearance. A *name table* holds
a pool of namespace URIs, in which the empty URI stands for "no namespace" and has number 0, and a
pool of local names.

- `Pool.add`: the number of a text, with the pool that holds it.
- `NameTable.intern`: the symbol of a name, with the table that knows it.
- `NameTable.nameOf?`: the name of a symbol.

A name that fails to be interned because it is malformed leaves no trace in the table.
-/

namespace ElementContent

/-- Distinct texts in the order of their first appearance. -/
structure Pool where
  /-- The texts. -/
  entries : List String
  /-- No text stands twice. -/
  nodup : entries.Nodup

namespace Pool

/-- The pool without texts. -/
def empty : Pool := ⟨[], .nil⟩

/-- The number of a text, if the pool holds it. -/
def find? (p : Pool) (s : String) : Option Nat :=
  p.entries.idxOf? s

/-- The text with a number. -/
def get? (p : Pool) (i : Nat) : Option String :=
  p.entries[i]?

theorem not_mem_of_find?_eq_none {p : Pool} {s : String} (h : p.find? s = none) :
    s ∉ p.entries := by
  simpa [find?] using h

/-- The number of a text and the pool with it: a text that the pool lacks is put at the end. -/
def add (p : Pool) (s : String) : Nat × Pool :=
  match h : p.find? s with
  | some i => (i, p)
  | none =>
    (p.entries.length,
      ⟨p.entries ++ [s], List.nodup_append.2 ⟨p.nodup, by simp, by
        intro a ha b hb
        obtain rfl : b = s := by simpa using hb
        exact fun hab => not_mem_of_find?_eq_none h (hab ▸ ha)⟩⟩)

end Pool

/-- The known namespaces and local names. -/
structure NameTable where
  /-- The namespace URIs. -/
  spaces : Pool
  /-- The local names. -/
  names : Pool

namespace NameTable

/-- The table that knows the absent namespace and no name. -/
def empty : NameTable := ⟨⟨[""], by simp⟩, .empty⟩

/-- The id of a namespace; a new URI takes the next one. -/
def internSpace (t : NameTable) (uri : String) : NamespaceId × NameTable :=
  let (i, spaces) := t.spaces.add uri
  (.ofNat i, { t with spaces })

/-- How many local names have an id. -/
def capacity : Nat := 4294967295

/-- The symbol of a name. The name is checked before anything is added. -/
def intern (t : NameTable) (uri : Option String) (name : String) :
    Except Error Symbol × NameTable :=
  if isNCName name then
    let (space, t) := t.internSpace (uri.getD "")
    let (i, names) := t.names.add name
    let t := { t with names }
    if i < capacity then (.ok ⟨space, .ofNat i⟩, t) else (.error .tableFull, t)
  else (.error (.invalidName name), t)

/-- The symbol of an expanded name. -/
def internExpanded (t : NameTable) (n : ExpandedName) : Except Error Symbol × NameTable :=
  t.intern n.uri n.name

/-- The symbol of a name in Clark form. -/
def internClark (t : NameTable) (s : String) : Except Error Symbol × NameTable :=
  match ExpandedName.ofClark s with
  | .ok n => t.internExpanded n
  | .error e => (.error e, t)

/-- The symbol of a name that the table knows. -/
def find? (t : NameTable) (uri : Option String) (name : String) : Option Symbol := do
  let space ← t.spaces.find? (uri.getD "")
  let i ← t.names.find? name
  return ⟨.ofNat space, .ofNat i⟩

/-- The URI of a namespace. -/
def uri (t : NameTable) (id : NamespaceId) : Except Error String :=
  match t.spaces.get? id.toNat with
  | some uri => .ok uri
  | none => .error (.unknownNamespace id)

/-- The name of a symbol; the reserved marks and symbols of other tables have none. -/
def nameOf? (t : NameTable) (s : Symbol) : Option ExpandedName :=
  if s.isReserved then none
  else do
    let uri ← t.spaces.get? s.space.toNat
    let name ← t.names.get? s.label.toNat
    return ⟨if uri.isEmpty then none else some uri, name⟩

/-- The Clark form of a symbol's name, or its ids if it has none here. -/
def render (t : NameTable) (s : Symbol) : String :=
  match t.nameOf? s with
  | some n => n.render
  | none => s.raw

end NameTable

end ElementContent
