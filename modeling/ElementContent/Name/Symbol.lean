/-!
# Namespace ids and symbols

Names are handled as numbers: a namespace has an id, and a *symbol* is a namespace id with the id
of a local name. Ids are 32-bit words. Id 0 is "no namespace", and the largest id is set apart for
the symbols that are no element names: the wildcard mark, the mark for the end of the content, and
the mark for text.

- `Symbol.isReserved`: the symbol is one of those set apart, so no child element bears it.
- `Symbol.Precedes`: the order by namespace id, then by local id.
-/

namespace ElementContent

/-- The id of a namespace. -/
abbrev NamespaceId : Type := UInt32

/-- The id of "no namespace". -/
def NamespaceId.absent : NamespaceId := 0

/-- The id that no namespace has; the reserved symbols stand in it. -/
def NamespaceId.reserved : NamespaceId := 4294967295

/-- An element name as a pair of ids, or one of the reserved marks. -/
structure Symbol where
  /-- The id of the namespace. -/
  space : NamespaceId
  /-- The id of the local name. -/
  label : UInt32
  deriving DecidableEq, Hashable, Repr

namespace Symbol

/-- The mark for any element. -/
def wildcard : Symbol := ⟨.reserved, 0⟩

/-- The mark for the end of the content. -/
def endMark : Symbol := ⟨.reserved, 1⟩

/-- The mark for text. -/
def text : Symbol := ⟨.reserved, 2⟩

/-- Whether the symbol stands in the reserved namespace, and so names no element. -/
def isReserved (s : Symbol) : Bool :=
  s.space == NamespaceId.reserved

theorem isReserved_iff {s : Symbol} : s.isReserved = true ↔ s.space = NamespaceId.reserved := by
  simp [isReserved]

/-- The text of a symbol by its ids alone: a mark has its own sign, the namespace id is left out
where there is no namespace. -/
def raw (s : Symbol) : String :=
  if s = wildcard then "*"
  else if s = endMark then "$"
  else if s = text then "#PCDATA"
  else if s.space = NamespaceId.absent then s!"#{s.label.toNat}"
  else s!"#{s.space.toNat}:{s.label.toNat}"

/-- Whether `s` comes no later than `t`: by namespace id, then by local id. -/
def notAfter (s t : Symbol) : Bool :=
  decide (s.space < t.space) || (s.space == t.space && decide (s.label ≤ t.label))

/-- The symbols in the order of `notAfter`. -/
def sort (symbols : List Symbol) : List Symbol :=
  symbols.mergeSort notAfter

end Symbol

end ElementContent
