import ElementContent.Name.Table
import ElementContent.Wildcard

/-!
# Terms

A *term* is what a leaf of a content stands for.

- `Term.takesChild`: a leaf with this term takes one child; the others stand for no child at all.
- `Term.accepts`: the child elements that a term takes.
- `Term.overlaps`: some child may be taken by both of two terms.
-/

namespace ElementContent

/-- What a leaf stands for. -/
inductive Term where
  /-- A child element of this name. -/
  | element (symbol : Symbol)
  /-- A child element that the wildcard admits. -/
  | any (wildcard : Wildcard)
  /-- Text, which is no child element. -/
  | text
  /-- Nothing. -/
  | empty
  deriving DecidableEq, Repr

namespace Term

/-- The term that a symbol stands for: two of the reserved marks stand for any element and for text,
every other symbol stands for an element of its name. -/
def ofSymbol (s : Symbol) : Term :=
  if s = .wildcard then any .any
  else if s = .text then text
  else element s

/-- Whether a leaf with this term takes a child. -/
def takesChild : Term → Bool
  | element _ | any _ => true
  | text | empty => false

/-- Whether the term takes a child of this name. No term takes a reserved symbol. -/
def accepts (t : Term) (s : Symbol) : Bool :=
  !s.isReserved &&
    match t with
    | element symbol => symbol == s
    | any wildcard => wildcard.allows s.space
    | text | empty => false

/-- Whether the two terms can take the same child. -/
def overlaps : Term → Term → Bool
  | element s, element t => s == t
  | element s, any w => w.allows s.space
  | any w, element s => w.allows s.space
  | any w, any v => !w.disjoint v
  | _, _ => false

/-- The name of a symbol in a message: by the table if there is one, otherwise by its ids. -/
def showSymbol (table : Option NameTable) (s : Symbol) : String :=
  match table with
  | some t => t.render s
  | none => s.raw

/-- The text of a term. -/
def render (table : Option NameTable) : Term → String
  | element s => showSymbol table s
  | any w => "any(" ++ w.render ++ ")"
  | text => "#PCDATA"
  | empty => "EMPTY"

end Term

end ElementContent
