import ElementContent.Content.Declaration
import ElementContent.Model.Expectation
import ElementContent.Model.Verdict

/-!
# Contents checked directly

A content of one leaf, of one leaf under a quantifier, or of a group of two leaves is checked
against its terms, without an automaton.

- `DirectModel.ofDeclaration?`: recognises these shapes; the leaves must take a child.
- `DirectModel.validate`, `DirectModel.expected`: the verdict on children, and what may come after
  them.
-/

namespace ElementContent

/-- A content with at most one operator. -/
inductive DirectModel where
  /-- One child. -/
  | single (term : Term)
  /-- The same kind of child, repeated. -/
  | quantified (quantifier : Quantifier) (term : Term)
  /-- Two children in order, or one of two. -/
  | group (kind : GroupKind) (left right : Term)
  deriving DecidableEq, Repr

namespace DirectModel

/-- The term of a node that is a leaf that takes a child. -/
def childTerm? (d : Declaration) (node : Nat) : Option Term :=
  match d.nodes[node]? with
  | some (.leaf term _) => if term.takesChild then some term else none
  | _ => none

/-- The direct model of a declaration that has such a shape. -/
def ofDeclaration? (d : Declaration) : Option DirectModel :=
  match d.nodes[d.root]? with
  | some (.leaf _ _) => (childTerm? d d.root).map single
  | some (.quantified q body) => (childTerm? d body).map (quantified q)
  | some (.group kind l r) => do
    let left ← childTerm? d l
    let right ← childTerm? d r
    return group kind left right
  | none => none

/-- The number of terms. -/
def termCount : DirectModel → Nat
  | single _ | quantified _ _ => 1
  | group _ _ _ => 2

/-- The verdict on at most one child. A second one is never allowed. -/
def validateOne (p : Symbol → Bool) (required : Bool) : List Symbol → Verdict
  | [] => if required then .failsAt 0 else .valid
  | s :: rest => if !p s then .failsAt 0 else if rest.isEmpty then .valid else .failsAt 1

/-- The verdict on two children in order. -/
def validatePair (left right : Term) : List Symbol → Verdict
  | [] => .failsAt 0
  | s :: rest =>
    if !left.accepts s then .failsAt 0
    else
      match rest with
      | [] => .failsAt 1
      | t :: rest =>
        if !right.accepts t then .failsAt 1 else if rest.isEmpty then .valid else .failsAt 2

/-- The verdict on children. -/
def validate (m : DirectModel) (children : List Symbol) : Verdict :=
  match m with
  | single term => validateOne term.accepts true children
  | quantified .optional term => validateOne term.accepts false children
  | quantified .star term => .ofAll term.accepts children
  | quantified .plus term =>
    if children.isEmpty then .failsAt 0 else .ofAll term.accepts children
  | group .sequence left right => validatePair left right children
  | group .choice left right =>
    validateOne (fun s => left.accepts s || right.accepts s) true children

/-- What may come after `length` children that have been valid so far. -/
def expectationAfter (m : DirectModel) (length : Nat) : Expectation :=
  match m with
  | single term => .ofTerms (if length = 0 then [term] else []) (length == 1)
  | quantified .optional term => .ofTerms (if length = 0 then [term] else []) true
  | quantified .star term => .ofTerms [term] true
  | quantified .plus term => .ofTerms [term] (decide (0 < length))
  | group .sequence left right =>
    .ofTerms (if length = 0 then [left] else if length = 1 then [right] else []) (length == 2)
  | group .choice left right => .ofTerms (if length = 0 then [left, right] else []) (length == 1)

/-- What may come after children; nothing is said after children that no others can make valid. -/
def expected (m : DirectModel) (children : List Symbol) : Option Expectation :=
  match m.validate children with
  | .valid => some (m.expectationAfter children.length)
  | .failsAt i =>
    if Verdict.isIncomplete i children.length then some (m.expectationAfter children.length)
    else none

end DirectModel

end ElementContent
