import ElementContent.Position.Numbering

/-!
# Input classes

The leaves of a content tell apart only finitely many kinds of children: those that bear a declared
name; where there is a wildcard, also those of each namespace that a wildcard mentions, with "no
namespace" among them; and all others. These kinds are the *input classes*, and an automaton needs
one step for each.

- `Term.takes`: whether a term takes the children of a class.
- `alphabet`: the classes of the leaves: names in the order of the leaves, then namespaces in the
  order in which they are mentioned, then the rest.
- `classOf?`: the class of a child. A reserved symbol has none.
-/

namespace ElementContent

/-- A kind of children that no leaf tells apart. -/
inductive InputClass where
  /-- Children of a declared name. -/
  | element (symbol : Symbol)
  /-- Other children of a namespace that a wildcard mentions. -/
  | space (id : NamespaceId)
  /-- Children of all other namespaces. -/
  | foreign
  deriving DecidableEq, Repr

/-- Whether the term takes the children of the class. -/
def Term.takes : Term → InputClass → Bool
  | element s, .element t => s == t
  | any w, .element t => w.allows t.space
  | any w, .space id => w.allows id
  | any w, .foreign => w.allowsForeign
  | _, _ => false

/-- The class of the name that a term stands for. -/
def Term.elementClass? : Term → Option InputClass
  | element s => some (.element s)
  | _ => none

/-- The wildcard that a term stands for. -/
def Term.wildcard? : Term → Option Wildcard
  | any w => some w
  | _ => none

/-- The classes of the namespaces that wildcards mention, and of the rest. -/
def wildcardClasses (wildcards : List Wildcard) : List InputClass :=
  (NamespaceId.absent :: wildcards.flatMap Wildcard.mentioned).eraseDups.map .space ++ [.foreign]

/-- The input classes that the terms of a content tell apart. -/
def alphabet (terms : List Term) : List InputClass :=
  let wildcards := terms.filterMap Term.wildcard?
  (terms.filterMap Term.elementClass?).eraseDups
    ++ if wildcards.isEmpty then [] else wildcardClasses wildcards

/-- The number of the class of a child: that of its name, or else that of its namespace, or else
that of the rest. -/
def classOf? (classes : List InputClass) (s : Symbol) : Option Nat :=
  if s.isReserved then none
  else
    match classes.idxOf? (.element s) with
    | some i => some i
    | none =>
      match classes.idxOf? (.space s.space) with
      | some i => some i
      | none => classes.idxOf? .foreign

end ElementContent
