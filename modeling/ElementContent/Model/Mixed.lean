import ElementContent.Content.Tree
import ElementContent.Model.Expectation
import ElementContent.Model.Verdict

/-!
# Flat mixed contents

A flat mixed content allows text and the listed elements in any number and order. Text is no child,
so each child is looked up in the list and that is all.

- `MixedModel.ofDeclaration?`: recognises a repeated choice of text and elements, or text alone.
- `MixedModel.duplicates`: the elements that are listed more than once.
-/

namespace ElementContent

/-- A flat mixed content. -/
structure MixedModel where
  /-- The listed elements, in the order of their declaration. -/
  alternatives : List Symbol
  deriving DecidableEq, Repr

namespace MixedModel

/-- The terms of the leaves of trees that hold choices only, left to right, behind the terms found
before. -/
def choiceTerms : List Tree → Array Term → Option (List Term)
  | [], terms => some terms.toList
  | .leaf _ term _ :: rest, terms => choiceTerms rest (terms.push term)
  | .group _ .choice left right :: rest, terms => choiceTerms (left :: right :: rest) terms
  | .group _ .sequence _ _ :: _, _ => none
  | .quantified _ _ _ :: _, _ => none
termination_by trees => trees.foldr (fun t n => t.size + n) 0
decreasing_by
  all_goals simp [Tree.size]
  all_goals omega

/-- The elements among terms of which each is text or an element. -/
def elements? : List Term → Option (List Symbol)
  | [] => some []
  | .text :: rest => elements? rest
  | .element s :: rest => (elements? rest).map (s :: ·)
  | .any _ :: _ | .empty :: _ => none

/-- The mixed model of alternatives, of which one must be text. -/
def ofTerms? (terms : List Term) : Option MixedModel :=
  if .text ∈ terms then (elements? terms).map mk else none

/-- The mixed model of a declaration that has such a shape. -/
def ofDeclaration? (d : Declaration) : Option MixedModel :=
  match d.tree with
  | .leaf _ term _ => if term = .text then some ⟨[]⟩ else none
  | .quantified _ .star body => (choiceTerms [body] #[]).bind ofTerms?
  | _ => none

/-- The elements that stand a second time after those in `seen`, by their second occurrence, behind
those found before. -/
def duplicatesFrom (seen found : List Symbol) : List Symbol → List Symbol
  | [] => found.reverse
  | s :: rest =>
    if s ∈ seen then duplicatesFrom seen (if s ∈ found then found else s :: found) rest
    else duplicatesFrom (s :: seen) found rest

/-- The elements that are listed more than once, in the order of their second occurrence. -/
def duplicates (m : MixedModel) : List Symbol :=
  duplicatesFrom [] [] m.alternatives

/-- Whether an element is listed more than once. -/
def hasDuplicates (m : MixedModel) : Bool :=
  !m.duplicates.isEmpty

/-- The verdict on children. -/
def validate (m : MixedModel) (children : List Symbol) : Verdict :=
  .ofAll m.alternatives.contains children

/-- What may come after children; nothing is said after a child that is not listed. -/
def expected (m : MixedModel) (children : List Symbol) : Option Expectation :=
  match m.validate children with
  | .valid => some (.ofTerms (m.alternatives.map .element) true)
  | .failsAt _ => none

end MixedModel

end ElementContent
