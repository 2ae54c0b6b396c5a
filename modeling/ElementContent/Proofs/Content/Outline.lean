import ElementContent.Content.Tree

/-!
# Outlines

A group of two in a group of two of the same kind is one group of three. The *outline* of a content
forgets how such groups are nested, and the ids with it; what is left is the operators with their
operands and the leaves, left to right. Whatever is computed from the bottom up, in such a way that
the nesting of groups of one kind makes no difference, is known from the outline.

- `Tree.outline`: the outline of a tree.
- `Outline.value?`: the value of an outline, computed from the left; `Tree.value?_outline` says that
  the nesting makes no difference.
- `Tree.eq_of_outline`: trees with one outline have one value.
-/

namespace ElementContent

/-- A content with its nested groups of one kind flattened. -/
inductive Outline where
  /-- A term, attributed to a particle or to none. -/
  | leaf (term : Term) (particle : Option Nat)
  /-- Any number of parts. -/
  | group (kind : GroupKind) (operands : List Outline)
  /-- One part, repeated. -/
  | quantified (quantifier : Quantifier) (body : Outline)

/-- What the outline stands for as an operand of a group: its own operands, if it is a group of the
same kind. -/
def Outline.operandsIn (kind : GroupKind) : Outline → List Outline
  | group kind' operands => if kind' = kind then operands else [group kind' operands]
  | o => [o]

/-- The outline of a content. -/
def Tree.outline : Tree → Outline
  | leaf _ term particle => .leaf term particle
  | group _ kind l r => .group kind (l.outline.operandsIn kind ++ r.outline.operandsIn kind)
  | quantified _ q body => .quantified q body.outline

namespace Outline

variable {α : Type} (value : Node α → α)

/-- The value of a group of two, of which one or both may be missing. -/
def join? (kind : GroupKind) : Option α → Option α → Option α
  | some x, some y => some (value (.group kind x y))
  | some x, none => some x
  | none, y => y

mutual

/-- The value of an outline, if no group in it is without operands. -/
def value? : Outline → Option α
  | leaf term particle => some (value (.leaf term particle))
  | group kind operands => valueOfAll? kind operands
  | quantified q body => (value? body).map fun x => value (.quantified q x)

/-- The value of operands that are put together to a group. -/
def valueOfAll? (kind : GroupKind) : List Outline → Option α
  | [] => none
  | o :: os => join? value kind (value? o) (valueOfAll? kind os)

end

variable {value} {kind : GroupKind}
  (hassoc : ∀ kind x y z, value (.group kind (value (.group kind x y)) z) =
    value (.group kind x (value (.group kind y z))))

theorem join?_none (x : Option α) : join? value kind x none = x := by
  cases x <;> rfl

include hassoc in
theorem join?_assoc (x y z : Option α) :
    join? value kind (join? value kind x y) z = join? value kind x (join? value kind y z) := by
  cases x with
  | none => rfl
  | some x =>
    cases y with
    | none => rfl
    | some y =>
      cases z with
      | none => rfl
      | some z => exact congrArg some (hassoc kind x y z)

include hassoc in
theorem valueOfAll?_append (os os' : List Outline) : valueOfAll? value kind (os ++ os') =
    join? value kind (valueOfAll? value kind os) (valueOfAll? value kind os') := by
  induction os with
  | nil => rfl
  | cons o os ih =>
    rw [List.cons_append, valueOfAll?, valueOfAll?, ih, join?_assoc hassoc]

theorem valueOfAll?_operandsIn (o : Outline) :
    valueOfAll? value kind (o.operandsIn kind) = o.value? value := by
  have hsingle : ∀ o : Outline, valueOfAll? value kind [o] = o.value? value := fun o => by
    rw [valueOfAll?, valueOfAll?, join?_none]
  cases o with
  | leaf term particle => exact hsingle _
  | group kind' operands =>
    rw [operandsIn]
    split
    · next hkind => rw [hkind, value?]
    · exact hsingle _
  | quantified q body => exact hsingle _

end Outline

/-- The value of a tree is that of its outline. -/
theorem Tree.value?_outline {α : Type} {value : Node α → α} {f : Tree → α}
    (hassoc : ∀ kind x y z, value (.group kind (value (.group kind x y)) z) =
      value (.group kind x (value (.group kind y z))))
    (hf : ∀ i n, f (.ofNode i n) = value (n.map f)) (t : Tree) :
    t.outline.value? value = some (f t) := by
  induction t with
  | leaf i term particle => exact congrArg some (hf i (.leaf term particle)).symm
  | group i kind l r ihl ihr =>
    rw [outline, Outline.value?, Outline.valueOfAll?_append hassoc,
      Outline.valueOfAll?_operandsIn, Outline.valueOfAll?_operandsIn, ihl, ihr]
    exact congrArg some (hf i (.group kind l r)).symm
  | quantified i q body ih =>
    rw [outline, Outline.value?, ih]
    exact congrArg some (hf i (.quantified q body)).symm

/-- What is computed from the bottom up, and does not depend on ids nor on how groups of one kind
are nested, is the same for trees with the same outline. -/
theorem Tree.eq_of_outline {α : Type} {t t' : Tree} {f : Tree → α} (value : Node α → α)
    (hassoc : ∀ kind x y z, value (.group kind (value (.group kind x y)) z) =
      value (.group kind x (value (.group kind y z))))
    (hf : ∀ i n, f (.ofNode i n) = value (n.map f)) (h : t.outline = t'.outline) : f t = f t' := by
  have hvalue := value?_outline hassoc hf t
  rw [h, value?_outline hassoc hf t'] at hvalue
  exact (Option.some.inj hvalue).symm

end ElementContent
