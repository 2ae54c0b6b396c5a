import ElementContent.Automaton.Alphabet
import Mathlib.Algebra.Group.Nat.Defs
import Mathlib.Data.Finset.Card
import Mathlib.Data.Fintype.Card
import Mathlib.Data.List.Basic

/-!
# The classes are an exact quotient of the children

The terms of a content cannot tell two children of one class apart, and a child without a class is
taken by none of them. So an automaton may step by classes.

- `accepts_iff_takes_class`: a term of the content accepts a child if and only if it takes the class
  of the child.
- `nodup_alphabet`: no class is listed twice.
- `exists_symbol_of_class`: if the terms are not too many, every class is that of some child, so no
  step of an automaton is idle.
-/

namespace ElementContent

/-- What is left after duplicates are erased has none. -/
theorem nodup_eraseDups {α : Type} [BEq α] [LawfulBEq α] (l : List α) : l.eraseDups.Nodup := by
  match l with
  | [] => exact .nil
  | x :: xs =>
    rw [List.eraseDups_cons]
    refine List.nodup_cons.2 ⟨?_, nodup_eraseDups _⟩
    rw [List.mem_eraseDups, List.mem_filter]
    simp
termination_by l.length
decreasing_by
  rw [List.length_cons]
  exact Nat.lt_succ_of_le (List.length_filter_le _ _)

/-! ## Members of the alphabet -/

theorem mem_elementClasses_iff {ts : List Term} {c : InputClass} :
    c ∈ (ts.filterMap Term.elementClass?).eraseDups ↔ ∃ s, .element s ∈ ts ∧ c = .element s := by
  rw [List.mem_eraseDups, List.mem_filterMap]
  constructor
  · rintro ⟨t, ht, hc⟩
    cases t with
    | element s => exact ⟨s, ht, (Option.some.inj hc).symm⟩
    | any w => cases hc
    | text => cases hc
    | empty => cases hc
  · rintro ⟨s, hs, rfl⟩
    exact ⟨.element s, hs, rfl⟩

theorem mem_wildcards_iff {ts : List Term} {w : Wildcard} :
    w ∈ ts.filterMap Term.wildcard? ↔ .any w ∈ ts := by
  rw [List.mem_filterMap]
  constructor
  · rintro ⟨t, ht, hw⟩
    cases t with
    | any v =>
      obtain rfl := Option.some.inj hw
      exact ht
    | element s => cases hw
    | text => cases hw
    | empty => cases hw
  · exact fun h => ⟨.any w, h, rfl⟩

/-- The namespaces that the wildcards among the terms name. -/
def mentionedBy (ts : List Term) : List NamespaceId :=
  ((ts.filterMap Term.wildcard?).flatMap Wildcard.mentioned).eraseDups

theorem mem_mentionedBy_iff {ts : List Term} {n : NamespaceId} :
    n ∈ mentionedBy ts ↔ ∃ w, .any w ∈ ts ∧ n ∈ w.mentioned := by
  simp only [mentionedBy, List.mem_eraseDups, List.mem_flatMap, mem_wildcards_iff]

/-- Terms that take no child name no namespace. -/
theorem mentionedBy_filter_takesChild (ts : List Term) :
    mentionedBy (ts.filter Term.takesChild) = mentionedBy ts := by
  have : (ts.filter Term.takesChild).filterMap Term.wildcard? = ts.filterMap Term.wildcard? := by
    rw [List.filterMap_filter]
    refine List.filterMap_congr fun t _ => ?_
    cases t <;> rfl
  rw [mentionedBy, this, mentionedBy]

theorem mem_wildcardClasses_iff {ws : List Wildcard} {c : InputClass} :
    c ∈ wildcardClasses ws ↔ c = .foreign ∨
      ∃ n, c = .space n ∧ (n = NamespaceId.absent ∨ n ∈ ws.flatMap Wildcard.mentioned) := by
  simp only [wildcardClasses, List.mem_append, List.mem_map, List.mem_eraseDups, List.mem_cons,
    List.not_mem_nil, or_false]
  constructor
  · rintro (⟨n, hn, rfl⟩ | rfl)
    · exact .inr ⟨n, rfl, hn⟩
    · exact .inl rfl
  · rintro (rfl | ⟨n, rfl, hn⟩)
    · exact .inr rfl
    · exact .inl ⟨n, hn, rfl⟩

/-- A class of the alphabet is that of a declared name, or else there is a wildcard and it is that
of all other children or of a namespace, absent or mentioned. -/
theorem mem_alphabet_iff {ts : List Term} {c : InputClass} :
    c ∈ alphabet ts ↔ (∃ s, .element s ∈ ts ∧ c = .element s) ∨ (∃ w, .any w ∈ ts) ∧
      (c = .foreign ∨ ∃ n, c = .space n ∧ (n = NamespaceId.absent ∨ n ∈ mentionedBy ts)) := by
  simp only [alphabet, List.mem_append, mem_elementClasses_iff]
  refine or_congr_right ?_
  by_cases hw : (ts.filterMap Term.wildcard?).isEmpty = true
  · rw [if_pos hw]
    refine iff_of_false (by simp) ?_
    rintro ⟨⟨w, hmem⟩, -⟩
    rw [← mem_wildcards_iff, List.isEmpty_iff.1 hw] at hmem
    cases hmem
  · rw [if_neg hw, mem_wildcardClasses_iff]
    have hex : ∃ w, .any w ∈ ts := by
      obtain ⟨w, hmem⟩ := List.exists_mem_of_ne_nil _ fun h => hw (List.isEmpty_iff.2 h)
      exact ⟨w, mem_wildcards_iff.1 hmem⟩
    simp only [hex, true_and, mentionedBy, List.mem_eraseDups]

theorem element_mem_alphabet_iff {ts : List Term} {s : Symbol} :
    .element s ∈ alphabet ts ↔ .element s ∈ ts := by
  simp [mem_alphabet_iff]

theorem space_mem_alphabet_iff {ts : List Term} {n : NamespaceId} :
    .space n ∈ alphabet ts ↔
      (∃ w, .any w ∈ ts) ∧ (n = NamespaceId.absent ∨ n ∈ mentionedBy ts) := by
  simp [mem_alphabet_iff]

theorem foreign_mem_alphabet_iff {ts : List Term} :
    .foreign ∈ alphabet ts ↔ ∃ w, .any w ∈ ts := by
  simp [mem_alphabet_iff]

theorem nodup_alphabet (ts : List Term) : (alphabet ts).Nodup := by
  have hws : (wildcardClasses (ts.filterMap Term.wildcard?)).Nodup := by
    refine List.nodup_append.2 ⟨?_, by simp, ?_⟩
    · refine List.Nodup.map (fun a b hab => ?_) (nodup_eraseDups _)
      injection hab
    · rintro c hc c' hc' rfl
      obtain rfl := List.mem_singleton.1 hc'
      simp at hc
  refine List.nodup_append.2 ⟨nodup_eraseDups _, ?_, ?_⟩
  · split
    · exact .nil
    · exact hws
  · -- the classes of names are listed apart from the others
    rintro c hc c' hc' rfl
    obtain ⟨s, -, rfl⟩ := mem_elementClasses_iff.1 hc
    split at hc'
    · cases hc'
    · simp [mem_wildcardClasses_iff] at hc'

/-! ## The class of a child -/

/-- The class of a child: that of its name, or else that of its namespace, or else that of all
others, whichever is found first among the classes. -/
inductive ClassOf (classes : List InputClass) (s : Symbol) : InputClass → Prop
  | element : .element s ∈ classes → ClassOf classes s (.element s)
  | space : .element s ∉ classes → .space s.space ∈ classes → ClassOf classes s (.space s.space)
  | foreign : .element s ∉ classes → .space s.space ∉ classes → .foreign ∈ classes →
    ClassOf classes s .foreign

theorem getElem?_of_idxOf? {l : List InputClass} {c : InputClass} {i : Nat}
    (h : l.idxOf? c = some i) : l[i]? = some c := by
  obtain ⟨hi, hc, -⟩ := List.idxOf?_eq_some_iff.1 h
  rw [List.getElem?_eq_getElem hi, hc]

theorem idxOf?_of_getElem? {l : List InputClass} (hl : l.Nodup) {c : InputClass} {i : Nat}
    (h : l[i]? = some c) : l.idxOf? c = some i := by
  obtain ⟨hi, hc⟩ := List.getElem?_eq_some_iff.1 h
  refine List.idxOf?_eq_some_iff.2 ⟨hi, hc, fun j hj hjc => ?_⟩
  have : j = i := hl.getElem_inj_iff.1 (hjc.trans hc.symm)
  omega

/-- The look-up finds the class of a child that is no reserved symbol, wherever it is listed. -/
theorem classOf?_eq_some_iff {classes : List InputClass} (hnodup : classes.Nodup) {s : Symbol}
    {i : Nat} : classOf? classes s = some i ↔
      s.isReserved = false ∧ ∃ c, classes[i]? = some c ∧ ClassOf classes s c := by
  have hfound : ∀ {c : InputClass} {j : Nat}, classes.idxOf? c = some j →
      (j = i ↔ classes[i]? = some c) := by
    intro c j hj
    constructor
    · rintro rfl
      exact getElem?_of_idxOf? hj
    · intro hi
      exact Option.some.inj (hj.symm.trans (idxOf?_of_getElem? hnodup hi))
  unfold classOf?
  cases hs : s.isReserved with
  | true => simp
  | false =>
    simp only [Bool.false_eq_true, if_false, true_and]
    cases he : classes.idxOf? (.element s) with
    | some j =>
      -- the name is listed
      have hmem := List.mem_of_getElem? (getElem?_of_idxOf? he)
      simp only [Option.some.injEq, hfound he]
      constructor
      · exact fun h => ⟨_, h, .element hmem⟩
      · rintro ⟨c, hc, hclass⟩
        cases hclass with
        | element => exact hc
        | space hno => exact absurd hmem hno
        | foreign hno => exact absurd hmem hno
    | none =>
      have hno := List.idxOf?_eq_none_iff.1 he
      simp only
      cases hn : classes.idxOf? (.space s.space) with
      | some j =>
        -- the namespace is listed, but not the name
        have hmem := List.mem_of_getElem? (getElem?_of_idxOf? hn)
        simp only [Option.some.injEq, hfound hn]
        constructor
        · exact fun h => ⟨_, h, .space hno hmem⟩
        · rintro ⟨c, hc, hclass⟩
          cases hclass with
          | element hyes => exact absurd hyes hno
          | space => exact hc
          | foreign _ hno' => exact absurd hmem hno'
      | none =>
        have hno' := List.idxOf?_eq_none_iff.1 hn
        simp only
        constructor
        · intro h
          have hc := getElem?_of_idxOf? h
          exact ⟨_, hc, .foreign hno hno' (List.mem_of_getElem? hc)⟩
        · rintro ⟨c, hc, hclass⟩
          cases hclass with
          | element hyes => exact absurd hyes hno
          | space _ hyes => exact absurd hyes hno'
          | foreign => exact idxOf?_of_getElem? hnodup hc

/-! ## Terms and classes -/

/-- A wildcard lets in a foreign namespace just as it lets in any other that it does not name. -/
theorem allows_of_not_mentioned {w : Wildcard} {n : NamespaceId} (habsent : n ≠ NamespaceId.absent)
    (hn : n ∉ w.mentioned) : w.allows n = w.allowsForeign := by
  cases w with
  | any => rfl
  | other target =>
    have : n ≠ target := fun h => hn (by simp [Wildcard.mentioned, h])
    simp [Wildcard.allows, Wildcard.allowsForeign, habsent, this]
  | oneOf ids =>
    have : n ∉ ids.ids := hn
    simp [Wildcard.allows, Wildcard.allowsForeign, NamespaceSet.contains, this]
  | noneOf ids =>
    have : n ∉ ids.ids := hn
    simp [Wildcard.allows, Wildcard.allowsForeign, NamespaceSet.contains, this]

/-- A term of the content takes the class of a child if and only if it accepts the child. -/
theorem takes_iff_accepts {ts : List Term} {t : Term} (ht : t ∈ ts) {s : Symbol}
    (hs : s.isReserved = false) {c : InputClass} (hc : ClassOf (alphabet ts) s c) :
    t.takes c = true ↔ t.accepts s = true := by
  unfold Term.accepts
  simp only [hs, Bool.not_false, Bool.true_and]
  cases hc with
  | element => cases t <;> simp [Term.takes]
  | space hno =>
    cases t with
    | element s' =>
      have : s' ≠ s := fun h => hno (element_mem_alphabet_iff.2 (h ▸ ht))
      simp [Term.takes, this]
    | any w => rfl
    | text => rfl
    | empty => rfl
  | foreign hno hno' =>
    cases t with
    | element s' =>
      have : s' ≠ s := fun h => hno (element_mem_alphabet_iff.2 (h ▸ ht))
      simp [Term.takes, this]
    | any w =>
      have hfresh := fun h => hno' (space_mem_alphabet_iff.2 ⟨⟨w, ht⟩, h⟩)
      have hmention : s.space ∉ w.mentioned := fun h =>
        hfresh (.inr (mem_mentionedBy_iff.2 ⟨w, ht, h⟩))
      show w.allowsForeign = true ↔ w.allows s.space = true
      rw [allows_of_not_mentioned (fun h => hfresh (.inl h)) hmention]
    | text => rfl
    | empty => rfl

/-- A child that some term of the content accepts has a class. -/
theorem exists_classOf_of_accepts {ts : List Term} {t : Term} (ht : t ∈ ts) {s : Symbol}
    (h : t.accepts s = true) : ∃ c, ClassOf (alphabet ts) s c := by
  by_cases he : .element s ∈ alphabet ts
  · exact ⟨_, .element he⟩
  by_cases hn : .space s.space ∈ alphabet ts
  · exact ⟨_, .space he hn⟩
  refine ⟨_, .foreign he hn (foreign_mem_alphabet_iff.2 ?_)⟩
  cases t with
  | element s' =>
    obtain rfl : s' = s := by
      simp only [Term.accepts, Bool.and_eq_true, beq_iff_eq] at h
      exact h.2
    exact absurd (element_mem_alphabet_iff.2 ht) he
  | any w => exact ⟨w, ht⟩
  | text => simp [Term.accepts] at h
  | empty => simp [Term.accepts] at h

/-- A term of the content accepts a child if and only if it takes the class of the child. -/
theorem accepts_iff_takes_class {ts : List Term} {t : Term} (ht : t ∈ ts) {s : Symbol} :
    t.accepts s = true ↔ ∃ i c, classOf? (alphabet ts) s = some i ∧ (alphabet ts)[i]? = some c ∧
      t.takes c = true := by
  constructor
  · intro h
    have hs : s.isReserved = false := by
      simp only [Term.accepts, Bool.and_eq_true, Bool.not_eq_true'] at h
      exact h.1
    obtain ⟨c, hc⟩ := exists_classOf_of_accepts ht h
    have hmem : c ∈ alphabet ts := by
      cases hc <;> assumption
    obtain ⟨i, hi, rfl⟩ := List.getElem_of_mem hmem
    have hget := List.getElem?_eq_getElem hi
    exact ⟨i, _, (classOf?_eq_some_iff (nodup_alphabet ts)).2 ⟨hs, _, hget, hc⟩, hget,
      (takes_iff_accepts ht hs hc).2 h⟩
  · rintro ⟨i, c, hi, hget, htakes⟩
    obtain ⟨hs, c', hget', hc⟩ := (classOf?_eq_some_iff (nodup_alphabet ts)).1 hi
    obtain rfl : c = c' := Option.some.inj (hget.symm.trans hget')
    exact (takes_iff_accepts ht hs hc).1 htakes

/-! ## Every class has a child -/

/-- A list of words of 32 bits that is not too long leaves one out. -/
theorem exists_word_notMem {l : List UInt32} (h : l.length < 2 ^ 32) : ∃ x, x ∉ l := by
  have hcard : ((l.map UInt32.toFin).toFinset).card <
      (Finset.univ : Finset (Fin UInt32.size)).card := by
    rw [Finset.card_univ, Fintype.card_fin]
    exact Nat.lt_of_le_of_lt (List.toFinset_card_le _) (by simpa using h)
  obtain ⟨x, -, hx⟩ := Finset.exists_mem_notMem_of_card_lt_card hcard
  refine ⟨.ofFin x, fun hmem => hx ?_⟩
  rw [List.mem_toFinset]
  exact List.mem_map.2 ⟨_, hmem, rfl⟩

/-- Nothing among the terms stands in the reserved namespace: no name does, and no wildcard mentions
it. -/
def AvoidsReserved (ts : List Term) : Prop :=
  (∀ s, .element s ∈ ts → s.isReserved = false) ∧ NamespaceId.reserved ∉ mentionedBy ts

/-- The local part of the name that a term stands for. -/
def Term.label? : Term → Option UInt32
  | element s => some s.label
  | _ => none

/-- In every namespace some child bears none of the declared names, if these are not too many. -/
theorem exists_label (ts : List Term) (h : ts.length < 2 ^ 32) (n : NamespaceId) :
    ∃ label, .element ⟨n, label⟩ ∉ ts := by
  have hlen : (ts.filterMap Term.label?).length < 2 ^ 32 :=
    Nat.lt_of_le_of_lt (List.length_filterMap_le _ _) h
  obtain ⟨x, hx⟩ := exists_word_notMem hlen
  refine ⟨x, fun hmem => hx ?_⟩
  exact List.mem_filterMap.2 ⟨_, hmem, rfl⟩

/-- Every class of the alphabet is the class of some child, if the terms leave the reserved
namespace alone and neither they nor the namespaces that they mention are too many. -/
theorem exists_symbol_of_class {ts : List Term} (havoid : AvoidsReserved ts)
    (hlen : ts.length < 2 ^ 31) (hmention : (mentionedBy ts).length < 2 ^ 31) {c : InputClass}
    (hc : c ∈ alphabet ts) : ∃ s, s.isReserved = false ∧ ClassOf (alphabet ts) s c := by
  have hlen' : ts.length < 2 ^ 32 := by omega
  cases c with
  | element s => exact ⟨s, havoid.1 s (element_mem_alphabet_iff.1 hc), .element hc⟩
  | space n =>
    obtain ⟨label, hlabel⟩ := exists_label ts hlen' n
    refine ⟨⟨n, label⟩, ?_, .space (fun h => hlabel (element_mem_alphabet_iff.1 h)) hc⟩
    rcases (space_mem_alphabet_iff.1 hc).2 with rfl | hn
    · rfl
    · rw [Bool.eq_false_iff, Ne, Symbol.isReserved_iff]
      rintro rfl
      exact havoid.2 hn
  | foreign =>
    -- a namespace that is neither set apart, nor absent, nor mentioned
    have hfew : (NamespaceId.reserved :: NamespaceId.absent :: mentionedBy ts).length < 2 ^ 32 := by
      simp only [List.length_cons]
      omega
    obtain ⟨n, hn⟩ := exists_word_notMem hfew
    simp only [List.mem_cons, not_or] at hn
    obtain ⟨hreserved, habsent, hfresh⟩ := hn
    obtain ⟨label, hlabel⟩ := exists_label ts hlen' n
    refine ⟨⟨n, label⟩, ?_, .foreign (fun h => hlabel (element_mem_alphabet_iff.1 h)) ?_ hc⟩
    · rw [Bool.eq_false_iff, Ne, Symbol.isReserved_iff]
      exact hreserved
    · intro h
      rcases (space_mem_alphabet_iff.1 h).2 with hn | hn
      · exact habsent hn
      · exact hfresh hn

end ElementContent
