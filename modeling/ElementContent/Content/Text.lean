import ElementContent.Content.Tree

/-!
# The text of a content

A content is written as in a document type definition: groups in parentheses with `,` or `|` between
the operands, and the sign of a quantifier after its body. A group inside a group of its own kind
has no parentheses of its own; a quantifier inside a quantifier has.

- `Tree.text`: the text of a tree.
- `Declaration.render`: the text of a declaration. It is written piece by piece from the front, so a
  deep tree needs no deep recursion, and it is the text of the tree (`render_eq_text`).
-/

namespace ElementContent

/-- What stands between the operands of a group. -/
def GroupKind.separator : GroupKind → String
  | sequence => ","
  | choice => "|"

/-- The sign of a quantifier. -/
def Quantifier.sign : Quantifier → String
  | optional => "?"
  | star => "*"
  | plus => "+"

/-- The text of a tree that stands directly inside a group of the given kind, if inside any. -/
def Tree.text (table : Option NameTable) (within : Option GroupKind) : Tree → String
  | leaf _ term _ => term.render table
  | group _ kind left right =>
    let operands := left.text table (some kind) ++ kind.separator ++ right.text table (some kind)
    if within = some kind then operands else "(" ++ operands ++ ")"
  | quantified _ q body =>
    (if body.isQuantified then "(" ++ body.text table none ++ ")" else body.text table none)
      ++ q.sign

/-- A part of a text that is yet to be written. -/
inductive Piece where
  /-- A text. -/
  | text (s : String)
  /-- The text of a tree inside a group of the given kind. -/
  | tree (within : Option GroupKind) (t : Tree)

namespace Piece

/-- The text that a piece stands for. -/
def expand (table : Option NameTable) : Piece → String
  | text s => s
  | tree within t => t.text table within

/-- A bound on the steps that writing a piece takes. -/
def weight : Piece → Nat
  | text _ => 1
  | tree _ t => 8 * t.size

/-- Writes the pieces to the end of `out`. -/
def write (table : Option NameTable) : List Piece → String → String
  | [], out => out
  | text s :: rest, out => write table rest (out ++ s)
  | tree _ (.leaf _ term _) :: rest, out => write table rest (out ++ term.render table)
  | tree within (.group _ kind left right) :: rest, out =>
    let operands := [tree (some kind) left, text kind.separator, tree (some kind) right]
    if within = some kind then write table (operands ++ rest) out
    else write table ([text "("] ++ operands ++ [text ")"] ++ rest) out
  | tree _ (.quantified _ q body) :: rest, out =>
    if body.isQuantified then
      write table ([text "(", tree none body, text ")", text q.sign] ++ rest) out
    else write table ([tree none body, text q.sign] ++ rest) out
termination_by pieces => pieces.foldr (fun p n => p.weight + n) 0
decreasing_by
  all_goals simp [weight, Tree.size]
  all_goals omega

theorem write_eq (table : Option NameTable) (pieces : List Piece) (out : String) :
    write table pieces out = out ++ String.join (pieces.map (expand table)) := by
  fun_induction write table pieces out with
  | case1 out => simp
  | case2 s rest out ih => simp [ih, expand, String.append_assoc]
  | case3 w id term p rest out ih => simp [ih, expand, Tree.text, String.append_assoc]
  | case4 id kind left right rest out operands ih =>
    rw [ih]
    simp [operands, expand, Tree.text, String.append_assoc]
  | case5 w id kind left right rest out operands hne ih =>
    rw [ih]
    simp [operands, expand, Tree.text, String.append_assoc, hne]
  | case6 w id q body rest out hq ih =>
    rw [ih]
    simp [expand, Tree.text, String.append_assoc, hq]
  | case7 w id q body rest out hq ih =>
    rw [ih]
    simp [expand, Tree.text, String.append_assoc, hq]

end Piece

/-- The text of a declaration, with the names of elements by a table if there is one. -/
def Declaration.render (d : Declaration) (table : Option NameTable) : String :=
  Piece.write table [.tree none d.tree] ""

theorem Declaration.render_eq_text (d : Declaration) (table : Option NameTable) :
    d.render table = d.tree.text table none := by
  simp [render, Piece.write_eq, Piece.expand]

end ElementContent
