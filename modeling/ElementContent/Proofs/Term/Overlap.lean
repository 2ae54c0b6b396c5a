import ElementContent.Proofs.Automaton.Alphabet

/-!
# Overlap is a common child

Whether two terms overlap is decided by their form, without a search through all children. The
answer is right: they overlap if and only if some child is taken by both. Two wildcards that each
leave out only listed namespaces always share one, because namespaces do not run out.

- `Wildcard.allows_of_disjoint`, `Wildcard.exists_allows_of_not_disjoint`: the two directions for
  wildcards; `Wildcard.disjoint_iff` puts them together.
- `Term.overlaps_iff`: the statement for the terms of a content.
- `overlap_is_common_child`: wildcards and terms two by two.
-/

namespace ElementContent

namespace Wildcard

theorem disjoint_comm (w v : Wildcard) : w.disjoint v = v.disjoint w := by
  cases w with
  | oneOf a =>
    cases v with
    | oneOf b =>
      rw [Bool.eq_iff_iff]
      simp only [disjoint, allows, NamespaceSet.contains, List.all_eq_true, Bool.not_eq_true',
        List.contains_eq_mem, decide_eq_false_iff_not]
      exact ⟨fun h n hb ha => h n ha hb, fun h n ha hb => h n hb ha⟩
    | any => rfl
    | other target => rfl
    | noneOf b => rfl
  | any => cases v <;> rfl
  | other target => cases v <;> rfl
  | noneOf a => cases v <;> rfl

/-- Disjoint wildcards admit no namespace in common. -/
theorem allows_of_disjoint {w v : Wildcard} (h : w.disjoint v = true) {n : NamespaceId}
    (hw : w.allows n = true) : v.allows n = false := by
  unfold disjoint at h
  split at h
  · -- the first wildcard lists what it admits
    next ids =>
    have hmem : n ∈ ids.ids := by simpa [allows, NamespaceSet.contains] using hw
    simpa using List.all_eq_true.1 h n hmem
  · next w v ids hno =>
    rw [Bool.eq_false_iff]
    intro hv
    have hmem : n ∈ ids.ids := by simpa [allows, NamespaceSet.contains] using hv
    have := List.all_eq_true.1 h n hmem
    simp [hw] at this
  · cases h

/-- A wildcard that does not list what it admits lets in every namespace that is not absent and that
it does not mention. -/
theorem allows_of_fresh {w : Wildcard} (hw : w.allowsForeign = true) {n : NamespaceId}
    (habsent : n ≠ NamespaceId.absent) (hn : n ∉ w.mentioned) : w.allows n = true := by
  rw [allows_of_not_mentioned habsent hn, hw]

/-- Wildcards that are not disjoint admit a common namespace, because namespaces do not run out. It
is not the reserved one, unless a wildcard mentions that. -/
theorem exists_allows_of_not_disjoint {w v : Wildcard} {ids : List NamespaceId}
    (hids : ∀ n, n ∈ w.mentioned ∨ n ∈ v.mentioned → n ∈ ids) (hlen : ids.length < 2 ^ 32 - 4)
    (h : w.disjoint v = false) :
    ∃ n, (n = NamespaceId.reserved → n ∈ ids) ∧ w.allows n = true ∧ v.allows n = true := by
  unfold disjoint at h
  split at h
  · next set =>
    obtain ⟨n, hn, hv⟩ := List.all_eq_false.1 h
    have hmem : n ∈ set.ids := hn
    exact ⟨n, fun _ => hids n (.inl hmem), by simpa [allows, NamespaceSet.contains] using hmem,
      by simpa using hv⟩
  · next w v set hno =>
    obtain ⟨n, hn, hw⟩ := List.all_eq_false.1 h
    have hmem : n ∈ set.ids := hn
    exact ⟨n, fun _ => hids n (.inr hmem), by simpa using hw,
      by simpa [allows, NamespaceSet.contains] using hmem⟩
  · -- neither lists what it admits, so a namespace that is new to both will do
    next hw hv =>
    have hfew : (NamespaceId.reserved :: NamespaceId.absent :: ids).length < 2 ^ 32 := by
      simp only [List.length_cons]
      omega
    obtain ⟨n, hn⟩ := exists_word_notMem hfew
    simp only [List.mem_cons, not_or] at hn
    obtain ⟨hres, habsent, hfresh⟩ := hn
    have hforeign : ∀ x : Wildcard, (∀ set, x = .oneOf set → False) → x.allowsForeign = true := by
      intro x hx
      cases x with
      | oneOf set => exact absurd rfl fun h => hx set h
      | any => rfl
      | other target => rfl
      | noneOf set => rfl
    exact ⟨n, fun h => absurd h hres,
      allows_of_fresh (hforeign _ fun set h => hw set h) habsent fun h => hfresh (hids n (.inl h)),
      allows_of_fresh (hforeign _ fun set h => hv set h) habsent fun h => hfresh (hids n (.inr h))⟩

/-- Unless there are too many ids, disjointness is the lack of a common namespace. -/
theorem disjoint_iff {w v : Wildcard} (hlen : (mentionedBy [.any w, .any v]).length < 2 ^ 32 - 4) :
    w.disjoint v = true ↔ ¬ ∃ n, w.allows n = true ∧ v.allows n = true := by
  constructor
  · rintro h ⟨n, hw, hv⟩
    rw [allows_of_disjoint h hw] at hv
    cases hv
  · intro hno
    rw [← Bool.not_eq_false]
    intro h
    have hids : ∀ n, n ∈ w.mentioned ∨ n ∈ v.mentioned → n ∈ mentionedBy [.any w, .any v] := by
      rintro n (hn | hn)
      · exact mem_mentionedBy_iff.2 ⟨w, by simp, hn⟩
      · exact mem_mentionedBy_iff.2 ⟨v, by simp, hn⟩
    obtain ⟨n, -, hboth⟩ := exists_allows_of_not_disjoint hids hlen h
    exact hno ⟨n, hboth⟩

end Wildcard

namespace Term

theorem overlaps_comm (t u : Term) : t.overlaps u = u.overlaps t := by
  cases t with
  | element a =>
    cases u with
    | element b => exact BEq.comm
    | any v => rfl
    | text => rfl
    | empty => rfl
  | any w =>
    cases u with
    | element b => rfl
    | any v => exact congrArg not (w.disjoint_comm v)
    | text => rfl
    | empty => rfl
  | text => cases u <;> rfl
  | empty => cases u <;> rfl

/-- A child that both terms take makes them overlap. -/
theorem overlaps_of_accepts {t u : Term} {s : Symbol} (ht : t.accepts s = true)
    (hu : u.accepts s = true) : t.overlaps u = true := by
  simp only [accepts, Bool.and_eq_true] at ht hu
  obtain ⟨-, ht⟩ := ht
  obtain ⟨-, hu⟩ := hu
  cases t with
  | element a =>
    obtain rfl := beq_iff_eq.1 ht
    cases u with
    | element b => exact beq_iff_eq.2 (beq_iff_eq.1 hu).symm
    | any v => exact hu
    | text => cases hu
    | empty => cases hu
  | any w =>
    cases u with
    | element b =>
      obtain rfl := beq_iff_eq.1 hu
      exact ht
    | any v =>
      show (!w.disjoint v) = true
      rw [Bool.not_eq_true', Bool.eq_false_iff]
      intro h
      have hv : v.allows s.space = true := hu
      rw [Wildcard.allows_of_disjoint h ht] at hv
      cases hv
    | text => cases hu
    | empty => cases hu
  | text => cases ht
  | empty => cases ht

/-- Terms of a content overlap if and only if some child is taken by both. -/
theorem overlaps_iff {ts : List Term} (havoid : AvoidsReserved ts)
    (hlen : (mentionedBy ts).length < 2 ^ 32 - 4) {t u : Term} (ht : t ∈ ts) (hu : u ∈ ts) :
    t.overlaps u = true ↔ ∃ s, t.accepts s = true ∧ u.accepts s = true := by
  refine ⟨fun h => ?_, ?_⟩
  swap
  · rintro ⟨s, hts, hus⟩
    exact overlaps_of_accepts hts hus
  cases t with
  | element a =>
    have ha := havoid.1 a ht
    cases u with
    | element b =>
      obtain rfl := beq_iff_eq.1 h
      exact ⟨a, by simp [accepts, ha], by simp [accepts, ha]⟩
    | any v =>
      have h : v.allows a.space = true := h
      exact ⟨a, by simp [accepts, ha], by simp [accepts, ha, h]⟩
    | text => cases h
    | empty => cases h
  | any w =>
    cases u with
    | element b =>
      have hb := havoid.1 b hu
      have h : w.allows b.space = true := h
      exact ⟨b, by simp [accepts, hb, h], by simp [accepts, hb]⟩
    | any v =>
      have h : (!w.disjoint v) = true := h
      have hids : ∀ n, n ∈ w.mentioned ∨ n ∈ v.mentioned → n ∈ mentionedBy ts := by
        rintro n (hn | hn)
        · exact mem_mentionedBy_iff.2 ⟨w, ht, hn⟩
        · exact mem_mentionedBy_iff.2 ⟨v, hu, hn⟩
      obtain ⟨n, hn, hw, hv⟩ := Wildcard.exists_allows_of_not_disjoint hids hlen
        (by simpa using h)
      have hs : (⟨n, 0⟩ : Symbol).isReserved = false := by
        rw [Bool.eq_false_iff, Ne, Symbol.isReserved_iff]
        rintro rfl
        exact havoid.2 (hn rfl)
      exact ⟨⟨n, 0⟩, by simp [accepts, hs, hw], by simp [accepts, hs, hv]⟩
    | text => cases h
    | empty => cases h
  | text => cases h
  | empty => cases h

end Term

/-- Disjoint wildcards admit no namespace in common, and unless the two mention too many ids, others
do. So terms overlap if and only if there is a child that both accept, if they leave the reserved
namespace alone and do not mention too many ids. Neither relation depends on the order of the
two. -/
theorem overlap_is_common_child :
    (∀ w v : Wildcard,
      (w.disjoint v = true → ∀ n, ¬ (w.allows n = true ∧ v.allows n = true)) ∧
      w.disjoint v = v.disjoint w ∧
      ((mentionedBy [.any w, .any v]).length < 2 ^ 32 - 4 → w.disjoint v = false →
        ∃ n, w.allows n = true ∧ v.allows n = true)) ∧
    ∀ t u : Term, t.overlaps u = u.overlaps t ∧
      (AvoidsReserved [t, u] → (mentionedBy [t, u]).length < 2 ^ 32 - 4 →
        (t.overlaps u = true ↔
          ∃ s, s.isReserved = false ∧ t.accepts s = true ∧ u.accepts s = true)) := by
  refine ⟨fun w v => ⟨?_, w.disjoint_comm v, fun hlen h => ?_⟩,
    fun t u => ⟨t.overlaps_comm u, fun havoid hlen => ?_⟩⟩
  · rintro h n ⟨hw, hv⟩
    rw [Wildcard.allows_of_disjoint h hw] at hv
    cases hv
  · by_contra hno
    rw [(Wildcard.disjoint_iff hlen).2 hno] at h
    cases h
  · rw [Term.overlaps_iff havoid hlen (List.mem_cons_self ..) (by simp)]
    -- no reserved symbol is accepted by a term
    refine exists_congr fun s => (and_iff_right_of_imp ?_).symm
    rintro ⟨hs, -⟩
    simp only [Term.accepts, Bool.and_eq_true, Bool.not_eq_true'] at hs
    exact hs.1

/-- The wildcard for the elements of the namespaces 1 and 2, and the one for those of all but 2. -/
theorem overlap_is_common_child_listed :
    let w : Wildcard := .oneOf (.ofList [1, 2])
    let v : Wildcard := .noneOf (.ofList [2])
    (∃ n, w.allows n = true ∧ v.allows n = true) ∧
      ∃ s, s.isReserved = false ∧ (Term.any w).accepts s = true ∧
        (Term.any v).accepts s = true := by
  intro w v
  have hlen : (mentionedBy [.any w, .any v]).length < 2 ^ 32 - 4 := by decide
  have havoid : AvoidsReserved [.any w, .any v] := ⟨fun s hs => by simp at hs, by decide⟩
  obtain ⟨hwildcards, hterms⟩ := overlap_is_common_child
  exact ⟨(hwildcards w v).2.2 hlen (by decide),
    ((hterms (.any w) (.any v)).2 havoid hlen).1 (by decide)⟩

end ElementContent
