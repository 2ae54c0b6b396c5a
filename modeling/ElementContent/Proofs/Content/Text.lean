import ElementContent.Content.Text
import ElementContent.Proofs.Content.Outline
import ElementContent.Proofs.Content.Subtree
import ElementContent.Proofs.Content.Tagging
import ElementContent.Proofs.Term.Text

/-!
# The text of a content tells its outline

A content is written with the nesting of groups of one kind left out, and without its particles, so
contents with one outline have one text. The converse holds as well. Parentheses enclose a group or
a quantifier that stands under another; they tell which, because a group has a separator between its
operands, and what stands under a quantifier is followed by a sign, which no operand is.

- `Outline.code`: the text of an outline; `Outline.enclosed` is what stands before a sign.
- `Outline.Legible`: groups have two operands at least, and there are no particles.
- `Outline.Legible.readsBack`: a legible outline can be read back, both before a sign and as an
  operand.
- `Tree.toList_text`: the text of a content is that of its outline.
- `Declaration.render_eq_iff`: two contents have one text if and only if they have one outline.
-/

namespace ElementContent

/-- The character between the operands of a group. -/
def GroupKind.mark : GroupKind → Char
  | sequence => ','
  | choice => '|'

/-- The character of a quantifier. -/
def Quantifier.mark : Quantifier → Char
  | optional => '?'
  | star => '*'
  | plus => '+'

theorem GroupKind.toList_separator (kind : GroupKind) : kind.separator.toList = [kind.mark] := by
  cases kind <;> rfl

theorem Quantifier.toList_sign (q : Quantifier) : q.sign.toList = [q.mark] := by
  cases q <;> rfl

theorem GroupKind.mark_injective {kind kind' : GroupKind} (h : kind.mark = kind'.mark) :
    kind = kind' := by
  cases kind <;> cases kind' <;> first | rfl | cases h

theorem Quantifier.mark_injective {q q' : Quantifier} (h : q.mark = q'.mark) : q = q' := by
  cases q <;> cases q' <;> first | rfl | cases h

/-- The character may come after an operand: it goes on with no number and is the sign of no
quantifier. -/
def EndsOperand (c : Char) : Prop :=
  EndsNumbers c ∧ ∀ q : Quantifier, c ≠ q.mark

theorem endsNumbers_mark (q : Quantifier) : EndsNumbers q.mark := by
  cases q <;> exact ⟨rfl, by decide⟩

theorem endsOperand_mark (kind : GroupKind) : EndsOperand kind.mark := by
  refine ⟨?_, fun q => ?_⟩
  · cases kind <;> exact ⟨rfl, by decide⟩
  · cases kind <;> cases q <;> decide

theorem endsOperand_close : EndsOperand ')' :=
  ⟨⟨rfl, by decide⟩, fun q => by cases q <;> decide⟩

namespace Outline

/-- Whether a quantifier is at the top. -/
def isQuantified : Outline → Bool
  | quantified _ _ => true
  | _ => false

mutual

/-- The text of an outline. -/
def code : Outline → List Char
  | leaf term _ => term.code
  | group kind operands => '(' :: ([kind.mark].intercalate (codes operands) ++ [')'])
  | quantified q body =>
    (if body.isQuantified then '(' :: (body.code ++ [')']) else body.code) ++ [q.mark]

/-- The texts of the operands of a group. -/
def codes : List Outline → List (List Char)
  | [] => []
  | o :: os => o.code :: codes os

end

/-- The text before the sign of a quantifier. -/
def enclosed (o : Outline) : List Char :=
  if o.isQuantified then '(' :: (o.code ++ [')']) else o.code

/-- Groups have two operands at least, and no leaf belongs to a particle. -/
inductive Legible : Outline → Prop where
  | leaf (term : Term) : Legible (.leaf term none)
  | group (kind : GroupKind) (o o' : Outline) (os : List Outline)
    (h : ∀ u ∈ o :: o' :: os, Legible u) : Legible (.group kind (o :: o' :: os))
  | quantified (q : Quantifier) {body : Outline} (h : Legible body) : Legible (.quantified q body)

variable {o o' body : Outline} {r r' : List Char}

theorem codes_eq_map (os : List Outline) : codes os = os.map code := by
  induction os with
  | nil => rfl
  | cons o os ih => rw [codes, ih, List.map_cons]

theorem code_quantified_append (q : Quantifier) (body : Outline) (r : List Char) :
    (quantified q body).code ++ r = body.enclosed ++ q.mark :: r := by
  rw [code, List.append_assoc]
  rfl

theorem enclosed_of_isQuantified (h : o.isQuantified = true) :
    o.enclosed ++ r = '(' :: (o.code ++ ')' :: r) := by
  rw [enclosed, if_pos h, List.cons_append, List.append_assoc]
  rfl

theorem enclosed_of_not_isQuantified (h : o.isQuantified = false) : o.enclosed = o.code := by
  rw [enclosed, h]
  rfl

theorem enclosed_group_append (kind : GroupKind) (os : List Outline) (r : List Char) :
    (group kind os).enclosed ++ r =
      '(' :: ([kind.mark].intercalate (os.map code) ++ ')' :: r) := by
  rw [enclosed_of_not_isQuantified rfl, code, codes_eq_map, List.cons_append, List.append_assoc]
  rfl

/-! ## What stands before a sign -/

/-- The text of a term is not in parentheses. -/
theorem term_code_append_ne (t : Term) : t.code ++ r ≠ '(' :: r' := by
  cases t <;> simp [Term.code, Symbol.code]

theorem readsBack_leaf (term : Term) :
    ReadsBack enclosed Legible EndsNumbers (leaf term none) := by
  intro o' r r' ho' hr hr' h
  cases ho' with
  | leaf term' =>
    obtain ⟨hterm, hrest⟩ := term.readsBack term' r r' trivial hr hr' h
    exact ⟨by rw [hterm], hrest⟩
  | group kind u u' us _ =>
    rw [enclosed_group_append] at h
    exact absurd h (term_code_append_ne term)
  | @quantified q body _ =>
    rw [enclosed_of_isQuantified (show (quantified q body).isQuantified = true from rfl)] at h
    exact absurd h (term_code_append_ne term)

/-- The first operand of a group is followed by a separator. -/
theorem intercalate_operands (kind : GroupKind) (o o' : Outline) (os : List Outline)
    (r : List Char) : ∃ rest, [kind.mark].intercalate ((o :: o' :: os).map code) ++ r =
      o.code ++ kind.mark :: rest := by
  rw [List.map_cons, intercalate_cons, List.append_assoc]
  exact ⟨_, rfl⟩

/-- Parentheses enclose a group if there is a separator in them, and of the kind that it shows. -/
theorem readsBack_group (kind : GroupKind) {o o' : Outline} {os : List Outline}
    (h : ∀ u ∈ o :: o' :: os, ReadsBack code Legible EndsOperand u) :
    ReadsBack enclosed Legible EndsNumbers (group kind (o :: o' :: os)) := by
  intro v r r' hv _ _ heq
  have ho := (List.forall_mem_cons.1 h).1
  rw [enclosed_group_append] at heq
  cases hv with
  | leaf term => exact absurd heq.symm (term_code_append_ne term)
  | group kind' u u' us hu =>
    rw [enclosed_group_append] at heq
    have heq := (List.cons.inj heq).2
    obtain ⟨rest, hfirst⟩ := intercalate_operands kind o o' os (')' :: r)
    obtain ⟨rest', hfirst'⟩ := intercalate_operands kind' u u' us (')' :: r')
    have hmark := (ho u _ _ (List.forall_mem_cons.1 hu).1 (goesOn_cons (endsOperand_mark kind))
      (goesOn_cons (endsOperand_mark kind')) (hfirst.symm.trans (heq.trans hfirst'))).2
    obtain rfl := GroupKind.mark_injective (List.cons.inj hmark).1
    have hne : kind.mark ≠ ')' := by cases kind <;> decide
    obtain ⟨hoperands, hrest⟩ := eq_of_intercalate_append_eq hne (endsOperand_mark kind)
      endsOperand_close (fun v hv => h v (List.mem_cons_of_mem o hv))
      (fun v hv => hu v (List.mem_cons_of_mem u hv)) ho (List.forall_mem_cons.1 hu).1 heq
    exact ⟨by rw [hoperands], hrest⟩
  | quantified q hbody =>
    rw [enclosed_of_isQuantified rfl] at heq
    obtain ⟨rest, hfirst⟩ := intercalate_operands kind o o' os (')' :: r)
    have hmark := (ho _ _ _ (.quantified q hbody) (goesOn_cons (endsOperand_mark kind))
      (goesOn_cons endsOperand_close) (hfirst.symm.trans (List.cons.inj heq).2)).2
    exact absurd (List.cons.inj hmark).1 (by cases kind <;> decide)

/-- Parentheses enclose a quantifier if there is one operand in them. -/
theorem readsBack_enclosed_quantified {q : Quantifier}
    (h : ReadsBack code Legible EndsOperand (quantified q body)) :
    ReadsBack enclosed Legible EndsNumbers (quantified q body) := by
  intro v r r' hv _ _ heq
  rw [enclosed_of_isQuantified rfl] at heq
  cases hv with
  | leaf term => exact absurd heq.symm (term_code_append_ne term)
  | group kind u u' us hu =>
    rw [enclosed_group_append] at heq
    obtain ⟨rest, hfirst⟩ := intercalate_operands kind u u' us (')' :: r')
    have hmark := (h u _ _ (List.forall_mem_cons.1 hu).1 (goesOn_cons endsOperand_close)
      (goesOn_cons (endsOperand_mark kind)) ((List.cons.inj heq).2.trans hfirst)).2
    exact absurd (List.cons.inj hmark).1 (by cases kind <;> decide)
  | quantified q' hbody =>
    rw [enclosed_of_isQuantified rfl] at heq
    obtain ⟨ho, hrest⟩ := h _ _ _ (.quantified q' hbody) (goesOn_cons endsOperand_close)
      (goesOn_cons endsOperand_close) (List.cons.inj heq).2
    exact ⟨ho, (List.cons.inj hrest).2⟩

/-! ## Operands -/

/-- What stands before a sign can be read back as an operand, since a sign would not be missed. -/
theorem readsBack_of_not_isQuantified (ho : o.isQuantified = false)
    (h : ReadsBack enclosed Legible EndsNumbers o) : ReadsBack code Legible EndsOperand o := by
  intro v r r' hv hr hr' heq
  have hnumbers := hr.mono fun c hc => hc.1
  rw [← enclosed_of_not_isQuantified ho] at heq
  by_cases hquantified : v.isQuantified = true
  · cases hv with
    | leaf | group => cases hquantified
    | quantified q hbody =>
      rw [code_quantified_append] at heq
      obtain ⟨-, hrest⟩ := h _ _ _ hbody hnumbers (goesOn_cons (endsNumbers_mark q)) heq
      exact absurd rfl ((hr _ _ hrest).2 q)
  · rw [← enclosed_of_not_isQuantified (Bool.eq_false_iff.2 hquantified)] at heq
    exact h v r r' hv hnumbers (hr'.mono fun c hc => hc.1) heq

theorem readsBack_quantified (q : Quantifier) (h : ReadsBack enclosed Legible EndsNumbers body) :
    ReadsBack code Legible EndsOperand (quantified q body) := by
  intro v r r' hv _ hr' heq
  rw [code_quantified_append] at heq
  by_cases hquantified : v.isQuantified = true
  · cases hv with
    | leaf | group => cases hquantified
    | quantified q' hbody =>
      rw [code_quantified_append] at heq
      obtain ⟨rfl, hrest⟩ := h _ _ _ hbody (goesOn_cons (endsNumbers_mark q))
        (goesOn_cons (endsNumbers_mark q')) heq
      obtain ⟨hmark, hrest⟩ := List.cons.inj hrest
      exact ⟨by rw [Quantifier.mark_injective hmark], hrest⟩
  · rw [← enclosed_of_not_isQuantified (Bool.eq_false_iff.2 hquantified)] at heq
    obtain ⟨-, hrest⟩ := h v _ _ hv (goesOn_cons (endsNumbers_mark q))
      (hr'.mono fun c hc => hc.1) heq
    exact absurd rfl ((hr' _ _ hrest.symm).2 q)

/-- A legible outline can be read back. The induction carries both ways to stand in a text: an
operand is read by what stands before its sign, and parentheses by what they enclose. -/
theorem Legible.readsBack (h : o.Legible) : ReadsBack enclosed Legible EndsNumbers o ∧
    ReadsBack code Legible EndsOperand o := by
  induction h with
  | leaf term => exact ⟨readsBack_leaf term, readsBack_of_not_isQuantified rfl (readsBack_leaf term)⟩
  | group kind o o' os _ ih =>
    have henclosed := readsBack_group kind fun u hu => (ih u hu).2
    exact ⟨henclosed, readsBack_of_not_isQuantified rfl henclosed⟩
  | quantified q _ ih =>
    have hcode := readsBack_quantified q ih.1
    exact ⟨readsBack_enclosed_quantified hcode, hcode⟩

theorem Legible.eq_of_code_eq (h : o.Legible) (h' : o'.Legible) (hcode : o.code = o'.code) :
    o = o' :=
  (h.readsBack.2 o' [] [] h' goesOn_nil goesOn_nil (congrArg (· ++ []) hcode)).1

/-- An operand stands for one or more operands of the group around it, which are legible. -/
theorem Legible.operandsIn (h : o.Legible) (kind : GroupKind) :
    ∃ u us, o.operandsIn kind = u :: us ∧ ∀ v ∈ u :: us, v.Legible := by
  have hself : ∃ u us, [o] = u :: us ∧ ∀ v ∈ u :: us, v.Legible :=
    ⟨o, [], rfl, List.forall_mem_singleton.2 h⟩
  cases h with
  | leaf | quantified => exact hself
  | group kind' u u' us hu =>
    rw [Outline.operandsIn]
    split
    · exact ⟨u, u' :: us, rfl, hu⟩
    · exact hself

end Outline

/-! ## Contents -/

namespace Tree

variable {t : Tree}

theorem isQuantified_untagged_outline (t : Tree) :
    t.untagged.outline.isQuantified = t.isQuantified := by
  cases t <;> rfl

theorem untagged_group (i : Nat) (kind : GroupKind) (l r : Tree) :
    (group i kind l r).untagged = group i kind l.untagged r.untagged :=
  rfl

/-- A content without its particles has a legible outline. -/
theorem legible_outline (t : Tree) : t.untagged.outline.Legible := by
  induction t with
  | leaf i term particle => exact .leaf term
  | group i kind l r ihl ihr =>
    obtain ⟨u, us, hl, hu⟩ := ihl.operandsIn kind
    obtain ⟨v, vs, hr, hv⟩ := ihr.operandsIn kind
    have hmem : ∀ x ∈ (u :: us) ++ v :: vs, x.Legible := fun x hx =>
      (List.mem_append.1 hx).elim (hu x) (hv x)
    rw [untagged_group, outline, hl, hr]
    cases us with
    | nil => exact .group kind u v vs hmem
    | cons u' us => exact .group kind u u' (us ++ v :: vs) hmem
  | quantified i q body ih => exact .quantified q ih

/-- The text of a content is that of its outline, and inside a group that of the operands that it
stands for. -/
theorem toList_text (t : Tree) (h : ∀ term ∈ t.terms, term.IsPlain) :
    (t.text none none).toList = t.untagged.outline.code ∧
      ∀ kind : GroupKind, (t.text none (some kind)).toList =
        [kind.mark].intercalate ((t.untagged.outline.operandsIn kind).map Outline.code) := by
  have hsingle (kind : GroupKind) (o : Outline) :
      [kind.mark].intercalate ([o].map Outline.code) = o.code := by simp
  induction t with
  | leaf i term particle =>
    have hterm := Term.toList_render (h term (List.mem_singleton_self term))
    exact ⟨hterm, fun kind => hterm.trans (hsingle kind (.leaf term none)).symm⟩
  | group i kind l r ihl ihr =>
    obtain ⟨-, hl⟩ := ihl fun term hterm => h term (List.mem_append_left _ hterm)
    obtain ⟨-, hr⟩ := ihr fun term hterm => h term (List.mem_append_right _ hterm)
    obtain ⟨u, us, hu, -⟩ := l.legible_outline.operandsIn kind
    obtain ⟨v, vs, hv, -⟩ := r.legible_outline.operandsIn kind
    have hoperands : (l.text none (some kind) ++ kind.separator ++ r.text none (some kind)).toList =
        [kind.mark].intercalate ((l.untagged.outline.operandsIn kind ++
          r.untagged.outline.operandsIn kind).map Outline.code) := by
      rw [String.toList_append, String.toList_append, hl, hr, kind.toList_separator, hu, hv,
        List.map_append, List.map_cons, List.map_cons, intercalate_append, List.append_assoc]
      rfl
    have hgroup : ("(" ++ (l.text none (some kind) ++ kind.separator ++ r.text none (some kind)) ++
        ")").toList = (group i kind l r).untagged.outline.code := by
      rw [String.toList_append, String.toList_append, hoperands, untagged_group, outline,
        Outline.code, Outline.codes_eq_map]
      rfl
    refine ⟨hgroup, fun kind' => ?_⟩
    rw [text, untagged_group, outline, Outline.operandsIn]
    by_cases hkind : kind = kind'
    · subst hkind
      rw [if_pos rfl, if_pos rfl]
      exact hoperands
    · rw [if_neg fun heq => hkind (Option.some.inj heq).symm, if_neg hkind, hsingle]
      exact hgroup
  | quantified i q body ih =>
    have hbody := (ih h).1
    have hquantified (within : Option GroupKind) :
        ((quantified i q body).text none within).toList =
          (quantified i q body).untagged.outline.code := by
      show _ = (Outline.quantified q body.untagged.outline).code
      rw [text, String.toList_append, q.toList_sign, Outline.code, isQuantified_untagged_outline]
      split
      · rw [String.toList_append, String.toList_append, hbody]
        rfl
      · rw [hbody]
    exact ⟨hquantified none, fun kind => (hquantified (some kind)).trans (hsingle kind _).symm⟩

end Tree

/-- Two contents that name no reserved mark have one text if and only if their outlines are the
same, apart from particles. -/
theorem Declaration.render_eq_iff {d d' : Declaration} (hd : ∀ term ∈ d.tree.terms, term.IsPlain)
    (hd' : ∀ term ∈ d'.tree.terms, term.IsPlain) :
    d.render none = d'.render none ↔ d.tree.untagged.outline = d'.tree.untagged.outline := by
  rw [render_eq_text, render_eq_text, ← String.toList_inj, (d.tree.toList_text hd).1,
    (d'.tree.toList_text hd').1]
  refine ⟨fun h => ?_, fun h => by rw [h]⟩
  exact d.tree.legible_outline.eq_of_code_eq d'.tree.legible_outline h

end ElementContent
