import ElementContent.Content.Tree

/-!
# What a content allows

A *language* is a set of words. A content allows the words that its operators spell: one operand
after the other, either operand, or the body again and again. What a leaf stands for is left open,
so that the same rules give

- `Tree.children`: the sequences of children that the content allows;
- `Tree.marked`: the sequences of marks, where each leaf that takes a child bears a mark of its own.

These definitions say what the automata and the direct checks are to accept; none of those is used
here.
-/

namespace ElementContent

/-- A set of words. -/
def Language (α : Type) : Type :=
  List α → Prop

namespace Language

variable {α : Type}

/-- The words of one language followed by those of another. -/
def append (a b : Language α) : Language α := fun w =>
  ∃ u v, w = u ++ v ∧ a u ∧ b v

/-- The words of either language. -/
def union (a b : Language α) : Language α := fun w =>
  a w ∨ b w

/-- The words made of `n` words of the language. -/
def power (a : Language α) : Nat → Language α
  | 0 => fun w => w = []
  | n + 1 => append a (power a n)

end Language

/-- Whether the quantifier lets its body stand `n` times. -/
def Quantifier.allows : Quantifier → Nat → Prop
  | optional, n => n ≤ 1
  | star, _ => True
  | plus, n => 1 ≤ n

/-- The language of a group. -/
def GroupKind.combine {α : Type} : GroupKind → Language α → Language α → Language α
  | sequence => Language.append
  | choice => Language.union

/-- The language of a quantifier over a body. -/
def Quantifier.iterate {α : Type} (q : Quantifier) (a : Language α) : Language α := fun w =>
  ∃ n, q.allows n ∧ a.power n w

namespace Tree

variable {α : Type}

/-- The words of a tree, from the words of its leaves. -/
def words (leafWords : Nat → Term → Language α) : Tree → Language α
  | leaf id term _ => leafWords id term
  | group _ kind left right => kind.combine (left.words leafWords) (right.words leafWords)
  | quantified _ q body => q.iterate (body.words leafWords)

/-- The sequences of children that a content allows. A leaf stands for one child that its term
takes; one that takes no child stands for no children. -/
def children : Tree → Language Symbol :=
  words fun _ term w => if term.takesChild then ∃ s, w = [s] ∧ term.accepts s = true else w = []

/-- The sequences of marks that a content allows, where `mark` gives the marks of the leaves that
take a child. -/
def marked (mark : Nat → Option α) : Tree → Language α :=
  words fun id _ w => w = (mark id).toList

end Tree

end ElementContent
