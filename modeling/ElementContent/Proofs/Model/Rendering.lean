import ElementContent.Proofs.Automaton.Layout
import ElementContent.Proofs.Content.Text
import ElementContent.Proofs.Model.Compile

/-!
# Contents with one text

The text of a content, written without a name table, tells its outline but for particles, and the
outline tells the words of leaf numbers and the terms of the leaves. These decide every verdict, so
models of contents with one text give the same verdicts, however the models are made.

- `Tree.map_term_leaves_relabel`, `Tree.numbered_relabel`: ids and particles make no difference to
  the terms of the leaves and to the words.
- `Model.Fits.validate_eq_of_outline`: models that fit contents with one outline give one verdict.
-/

namespace ElementContent

namespace Tree

variable {f : Nat → Nat} {g : Option Nat → Option Nat} {t t' : Tree}

theorem map_term_leaves_relabel (t : Tree) :
    (t.relabel f g).leaves.map (·.term) = t.leaves.map (·.term) := by
  induction t with
  | leaf i term particle =>
    by_cases hterm : term.takesChild = true
    · simp [relabel, leaves, hterm]
    · simp [relabel, leaves, hterm]
  | group i kind l r ihl ihr =>
    show ((l.relabel f g).leaves ++ (r.relabel f g).leaves).map _ = (l.leaves ++ r.leaves).map _
    rw [List.map_append, List.map_append, ihl, ihr]
  | quantified i q body ih => exact ih

theorem numbered_relabel (t : Tree) (n : Nat) : (t.relabel f g).numbered n = t.numbered n := by
  induction t generalizing n with
  | leaf => rfl
  | group i kind l r ihl ihr =>
    have hlength : (l.relabel f g).leaves.length = l.leaves.length := by
      simpa using congrArg List.length (map_term_leaves_relabel (f := f) (g := g) l)
    show kind.combine ((l.relabel f g).numbered n)
      ((r.relabel f g).numbered (n + (l.relabel f g).leaves.length)) = _
    rw [hlength, ihl, ihr]
    rfl
  | quantified i q body ih => exact congrArg q.iterate (ih n)

theorem map_term_leaves_eq_of_outline (h : t.untagged.outline = t'.untagged.outline) :
    t.leaves.map (·.term) = t'.leaves.map (·.term) := by
  have hterms := congrArg (List.map Prod.fst) (marks_eq_of_outline h)
  rw [List.map_map, List.map_map] at hterms
  exact (map_term_leaves_relabel t).symm.trans (hterms.trans (map_term_leaves_relabel t'))

theorem numbered_eq_of_untagged_outline (h : t.untagged.outline = t'.untagged.outline) (n : Nat) :
    t.numbered n = t'.numbered n := by
  have hnumbered := congrFun (numbered_eq_of_outline h) n
  exact (numbered_relabel t n).symm.trans (hnumbered.trans (numbered_relabel t' n))

end Tree

/-- Models that fit contents with one outline give one verdict. -/
theorem Model.Fits.validate_eq_of_outline {m m' : Model} {t t' : Tree} (h : m.Fits t)
    (h' : m'.Fits t') (ht : ∀ term ∈ t.terms, term.IsPlain) (ht' : ∀ term ∈ t'.terms, term.IsPlain)
    (houtline : t.untagged.outline = t'.untagged.outline) (w : List Symbol) :
    m.validate w = m'.validate w := by
  have hplain {t : Tree} (ht : ∀ term ∈ t.terms, term.IsPlain) :
      ∀ s ∈ w, s.isReserved = true → .element s ∉ t.terms := by
    intro s _ hs hmem
    rw [ht _ hmem s rfl] at hs
    cases hs
  have hright := h.isRight_validate (hplain ht)
  have hright' := h'.isRight_validate (hplain ht')
  -- both verdicts are right for the same words, read in the same way
  have htakes : TakesAt t'.leaves = TakesAt t.leaves := by
    funext p s
    rw [eq_iff_iff, takesAt_iff, takesAt_iff, Tree.map_term_leaves_eq_of_outline houtline]
  rw [htakes, ← Tree.numbered_eq_of_untagged_outline houtline] at hright'
  exact Verdict.isRight_unique hright hright'

/-- Two contents that name no reserved mark have one text if and only if their trees are the same
when groups of one kind in each other are flattened and particles are left out. If they have, and
both compile, then every sequence of children gets the same verdict from both. -/
theorem text_tells_content {d d' : Declaration} (hd : ∀ term ∈ d.tree.terms, term.IsPlain)
    (hd' : ∀ term ∈ d'.tree.terms, term.IsPlain) :
    (d.render none = d'.render none ↔ d.tree.untagged.outline = d'.tree.untagged.outline) ∧
    (d.render none = d'.render none → ∀ (o : CompileOptions) (table table' : Option NameTable) c c',
      compile d o table = .ok c → compile d' o table' = .ok c' →
        ∀ w, c.model.validate w = c'.model.validate w) := by
  have hiff := Declaration.render_eq_iff hd hd'
  refine ⟨hiff, fun htext o table table' c c' hc hc' w => ?_⟩
  exact (fits_of_compile hc).validate_eq_of_outline (fits_of_compile hc') hd hd' (hiff.1 htext) w

theorem text_tells_content_leftContent : leftContent.render none = rightContent.render none ∧
    ∃ c c', compile leftContent {} none = .ok c ∧ compile rightContent {} none = .ok c' ∧
      ∀ w, c.model.validate w = c'.model.validate w := by
  have htree : leftContent.tree = .group 4 .sequence (.group 2 .sequence
      (.leaf 0 (.element ⟨0, 1⟩) none) (.leaf 1 (.element ⟨1, 1⟩) none))
      (.leaf 3 (.element ⟨2, 1⟩) none) := by
    cbv
  have htree' : rightContent.tree = .group 5 .sequence (.leaf 4 (.element ⟨0, 1⟩) none)
      (.group 3 .sequence (.leaf 2 (.element ⟨1, 1⟩) none)
        (.leaf 0 (.element ⟨2, 1⟩) none)) := by
    cbv
  have hplain : ∀ term ∈ [Term.element ⟨0, 1⟩, .element ⟨1, 1⟩, .element ⟨2, 1⟩], term.IsPlain := by
    intro term hmem s hterm
    simp only [List.mem_cons, List.not_mem_nil, or_false] at hmem
    rcases hmem with rfl | rfl | rfl <;> cases hterm <;> rfl
  have hd : ∀ term ∈ leftContent.tree.terms, term.IsPlain := by rwa [htree]
  have hd' : ∀ term ∈ rightContent.tree.terms, term.IsPlain := by rwa [htree']
  obtain ⟨hiff, hverdicts⟩ := text_tells_content hd hd'
  have htext := hiff.2 (by rw [htree, htree']; rfl)
  obtain ⟨c, hc⟩ : ∃ c, compile leftContent {} none = .ok c :=
    exists_compile none (by cbv) (by rw [htree]; decide) (by decide)
  obtain ⟨c', hc'⟩ : ∃ c, compile rightContent {} none = .ok c :=
    exists_compile none (by cbv) (by rw [htree']; decide) (by decide)
  exact ⟨htext, c, c', hc, hc', hverdicts htext {} none none c c' hc hc'⟩

end ElementContent
