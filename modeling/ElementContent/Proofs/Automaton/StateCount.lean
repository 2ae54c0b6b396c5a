import ElementContent.Proofs.Automaton.Worklist
import ElementContent.Proofs.Position.Depth
import ElementContent.Proofs.Position.Numbered
import Mathlib.Data.Set.Card

/-!
# How many states there are

The tables of an analysis say which sets of positions can be reached: the first one, and then, class
by class, all that may come after the positions of a set that take the class. How many such sets
there are is known before any automaton is built, and it is all that matters for the limit.

- `Analysis.IsState`: the sets that can be reached, by the tables alone.
- `Analysis.isState_iff`: they are the sets that the exploration meets.
- `Analysis.ncard_isState`: their number, from any list of them.
- `automaton_has_states`: there is an automaton just if they are not too many, and it has one state
  for each of them.
-/

namespace ElementContent

/-- The members of a set of positions. -/
def PositionSet.toSet (s : PositionSet) : Set Nat :=
  {q | s.contains q = true}

namespace Analysis

/-- The positions that may come first, and the end if nothing need come. -/
def opening (a : Analysis) : Set Nat :=
  {q | a.first.contains q = true ∨ a.nullable = true ∧ q = a.leaves.size}

/-- The positions that may come directly after a position, and the end if the content may end with
it. -/
def onward (a : Analysis) (p : Nat) : Set Nat :=
  {q | (∃ s, a.follow[p]? = some s ∧ s.contains q = true) ∨
    a.last.contains p = true ∧ q = a.leaves.size}

/-- What may come after those positions of a set that take a class. -/
def after (a : Analysis) (S : Set Nat) (c : InputClass) : Set Nat :=
  {q | ∃ p ∈ S, ∃ leaf, a.leaves[p]? = some leaf ∧ leaf.term.takes c = true ∧ q ∈ a.onward p}

/-- The classes that the leaves tell apart. -/
def inputClasses (a : Analysis) : List InputClass :=
  alphabet (a.leaves.toList.map (·.term))

/-- The sets that can be reached class by class: the first one, and from each all that are not
empty. -/
inductive IsState (a : Analysis) : Set Nat → Prop
  | opening : IsState a a.opening
  | after {S : Set Nat} {c : InputClass} : IsState a S →
    c ∈ a.inputClasses → (a.after S c).Nonempty → IsState a (a.after S c)

variable {t : Tree} {a : Analysis} {classes : List InputClass} {s target : PositionSet} {i : Nat}
  {c : InputClass}

theorem toSet_startSet (h : a.IsExact t) : a.startSet.toSet = a.opening :=
  Set.ext fun q => contains_withEnd h.words_first a.nullable q

/-- What comes next is told by the table of followers and by the last positions. -/
theorem mem_onward_iff (h : a.IsExact t) {p : Nat} (hp : p < a.leaves.size) (q : Nat) :
    q ∈ a.onward p ↔ (a.ended t).Adjacent p q := by
  have hs := Array.getElem?_eq_getElem (h.size_follow.symm ▸ hp : p < a.follow.size)
  rw [← contains_followSet h hs, followSet, contains_withEnd (h.follow_iff hs).1]
  simp [onward, hs]

theorem mem_after_iff (h : a.IsExact t) {S : Set Nat} {q : Nat} : q ∈ a.after S c ↔
    ∃ p ∈ S, (∃ leaf, a.leaves[p]? = some leaf ∧ leaf.term.takes c = true) ∧
      (a.ended t).Adjacent p q := by
  constructor
  · rintro ⟨p, hp, leaf, hleaf, htakes, hpq⟩
    have hlt := (Array.getElem?_eq_some_iff.1 hleaf).1
    exact ⟨p, hp, ⟨leaf, hleaf, htakes⟩, (mem_onward_iff h hlt q).1 hpq⟩
  · rintro ⟨p, hp, ⟨leaf, hleaf, htakes⟩, hpq⟩
    have hlt := (Array.getElem?_eq_some_iff.1 hleaf).1
    exact ⟨p, hp, leaf, hleaf, htakes, (mem_onward_iff h hlt q).2 hpq⟩

/-- A class leads from a set to what may come after the positions that take it. -/
theorem leads_iff (h : a.IsExact t) (hc : classes[i]? = some c) (q : Nat) :
    a.Leads t classes s i q ↔ q ∈ a.after s.toSet c := by
  rw [mem_after_iff h]
  constructor
  · rintro ⟨p, leaf, cls, hp, hleaf, hcls, htakes, hpq⟩
    obtain rfl := Option.some.inj (hc.symm.trans hcls)
    exact ⟨p, hp, ⟨leaf, hleaf, htakes⟩, hpq⟩
  · rintro ⟨p, hp, ⟨leaf, hleaf, htakes⟩, hpq⟩
    exact ⟨p, leaf, c, hp, hleaf, hc, htakes, hpq⟩

/-- The successor of a set for a class. -/
theorem toSet_of_successors (h : a.IsExact t) (hc : classes[i]? = some c)
    (htarget : (successors (a.moves classes) classes.length s)[i]? = some (some target)) :
    target.toSet = a.after s.toSet c := by
  ext q
  have hlt := (List.getElem?_eq_some_iff.1 hc).1
  rw [← leads_iff h hc, ← (describes_successors h classes s).holds_iff hlt, htarget]
  simp [PositionSet.toSet]

/-- There is a successor where something may come. -/
theorem exists_successors (h : a.IsExact t) (hc : classes[i]? = some c)
    (hne : (a.after s.toSet c).Nonempty) : ∃ target,
      (successors (a.moves classes) classes.length s)[i]? = some (some target) ∧
        target.isEmpty = false := by
  obtain ⟨q, hq⟩ := hne
  have hlt := (List.getElem?_eq_some_iff.1 hc).1
  obtain ⟨target, htarget, hq⟩ :=
    ((describes_successors h classes s).holds_iff hlt q).2 ((leads_iff h hc q).2 hq)
  refine ⟨target, htarget, Bool.eq_false_iff.2 fun hempty => ?_⟩
  rw [PositionSet.isEmpty_iff.1 hempty q] at hq
  cases hq

/-- All sets that are met have the same room. -/
theorem words_of_met (h : a.IsExact t)
    (hs : Met (a.moves classes) classes.length a.startSet s) :
    s.words = (a.leaves.size + 1 + 63) / 64 := by
  cases hs with
  | start => exact words_startSet
  | step _ hc _ => exact (describes_successors h classes _).words_eq hc

/-- The sets that can be reached are those that the exploration meets. -/
theorem isState_iff (h : a.IsExact t) {S : Set Nat} :
    a.IsState S ↔ ∃ s, Met (a.moves a.inputClasses) a.inputClasses.length a.startSet s ∧
      s.toSet = S := by
  constructor
  · intro hS
    induction hS with
    | opening => exact ⟨a.startSet, .start, toSet_startSet h⟩
    | @after S c _ hc hne ih =>
      obtain ⟨s, hs, rfl⟩ := ih
      obtain ⟨i, hi⟩ := List.mem_iff_getElem?.1 hc
      obtain ⟨target, htarget, hnonempty⟩ := exists_successors h hi hne
      exact ⟨target, .step hs htarget hnonempty, toSet_of_successors h hi htarget⟩
  · rintro ⟨s, hs, rfl⟩
    induction hs with
    | start =>
      rw [toSet_startSet h]
      exact .opening
    | @step s target i _ hi hne ih =>
      have hlt := (describes_successors h _ s).size_eq ▸ (Array.getElem?_eq_some_iff.1 hi).1
      have hc := List.getElem?_eq_getElem hlt
      have htarget := toSet_of_successors h hc hi
      rw [htarget]
      refine .after ih (List.getElem_mem hlt) ?_
      rw [← htarget]
      exact PositionSet.exists_contains_of_not_isEmpty hne

/-! ## Their number -/

theorem finite_isState (h : a.IsExact t) : {S | a.IsState S}.Finite := by
  refine (Set.finite_lt_nat (64 * ((a.leaves.size + 1 + 63) / 64))).finite_subsets.subset ?_
  intro S hS
  obtain ⟨s, hs, rfl⟩ := (isState_iff h).1 hS
  intro q hq
  have hlt := PositionSet.lt_room_of_contains hq
  rwa [PositionSet.room, words_of_met h hs] at hlt

/-- Different sets that are met have different members. -/
theorem ncard_image_toSet (h : a.IsExact t) {l : List PositionSet} (hl : l.Nodup)
    (hmet : ∀ s ∈ l, Met (a.moves classes) classes.length a.startSet s) :
    (PositionSet.toSet '' {s | s ∈ l}).ncard = l.length := by
  have hinj : Set.InjOn PositionSet.toSet {s | s ∈ l} := by
    intro s hs s' hs' heq
    have hwords := (words_of_met h (hmet s hs)).trans (words_of_met h (hmet s' hs')).symm
    refine PositionSet.ext_contains hwords fun q => ?_
    exact Bool.eq_iff_iff.2 (Set.ext_iff.1 heq q)
  have hset : {s | s ∈ l} = (l.toFinset : Set PositionSet) := by
    ext s
    simp
  rw [hinj.ncard_image, hset, Set.ncard_coe_finset, List.toFinset_card_of_nodup hl]

/-- There are at least as many sets that can be reached as are met. -/
theorem length_le_ncard_isState (h : a.IsExact t) {l : List PositionSet} (hl : l.Nodup)
    (hmet : ∀ s ∈ l, Met (a.moves a.inputClasses) a.inputClasses.length a.startSet s) :
    l.length ≤ {S | a.IsState S}.ncard := by
  rw [← ncard_image_toSet h hl hmet]
  refine Set.ncard_le_ncard ?_ (finite_isState h)
  rintro S ⟨s, hs, rfl⟩
  exact (isState_iff h).2 ⟨s, hmet s hs, rfl⟩

/-- There are as many sets that can be reached as there are sets that are met. -/
theorem ncard_isState (h : a.IsExact t) {l : List PositionSet} (hl : l.Nodup)
    (hmet : ∀ s, s ∈ l ↔ Met (a.moves a.inputClasses) a.inputClasses.length a.startSet s) :
    {S | a.IsState S}.ncard = l.length := by
  rw [← ncard_image_toSet h hl fun s hs => (hmet s).1 hs]
  congr 1
  ext S
  simp only [Set.mem_ofPred_eq, isState_iff h, ← hmet, Set.mem_image]

end Analysis

/-! ## The automaton -/

namespace Automaton

variable {t : Tree} {a : Analysis} {limits : Limits}

/-- The search for the states of an analysis comes to an end after it has taken some states, and
whatever is done in it leads there. -/
def SearchEnds (a : Analysis) (taken : List Nat) (w : Search limits)
    (result : Except Error (Array PositionSet)) : Prop :=
  Search.Run (a.moves a.inputClasses) a.inputClasses.length (.start a.startSet) taken w ∧
    w.EndsIn result ∧
    ∀ (taken' : List Nat) (w' : Search limits),
      Search.Run (a.moves a.inputClasses) a.inputClasses.length (.start a.startSet) taken' w' →
      ∃ rest, taken = taken' ++ rest ∧
        Search.Run (a.moves a.inputClasses) a.inputClasses.length w' rest w

theorem map_states_ofAnalysis (a : Analysis) (limits : Limits) :
    (ofAnalysis a limits).map (·.states) = (explore (a.moves a.inputClasses) a.inputClasses.length
      (.start a.startSet : Discovery limits) #[]).map (·.1.states) := by
  unfold ofAnalysis Analysis.inputClasses
  simp only
  split
  · next e he => rw [he]; rfl
  · next d rows he => rw [he]; rfl

/-- The search ends as the making of the automaton does. -/
theorem exists_searchEnds (a : Analysis) (limits : Limits) :
    ∃ (taken : List Nat) (w : Search limits),
      SearchEnds a taken w ((ofAnalysis a limits).map (·.states)) := by
  have horder : Search.InOrder (List.range (#[] : Array (Array (Option Nat))).size)
      (.start a.startSet : Search limits) := Search.inOrder_start a.startSet
  rw [map_states_ofAnalysis]
  obtain ⟨taken, w, hrun, hend⟩ := Search.exists_run_explore horder
  exact ⟨taken, w, hrun, hend, fun taken' w' => hrun.completes hend⟩

/-- An automaton has a state for each set that can be reached, and the search has taken each of them
once. -/
theorem size_states_eq (h : a.IsExact t) {m : Automaton} (hm : ofAnalysis a limits = .ok m) :
    m.states.size = {S | a.IsState S}.ncard ∧ m.states.size ≤ max 1 limits.states ∧
      ∃ w : Search limits, SearchEnds a (List.range m.states.size) w (.ok m.states) := by
  obtain ⟨taken, w, hsearch⟩ := exists_searchEnds a limits
  rw [hm] at hsearch
  obtain ⟨hrun, ⟨htargets, hqueue, hstates⟩, hcompletes⟩ := hsearch
  have hstates : w.found.states = m.states := hstates
  obtain ⟨he, hdone, hnodup⟩ := explored_ofAnalysis hm
  rw [(leaves_and_classes_ofAnalysis hm).2] at he
  have hcount := Analysis.ncard_isState h hnodup fun s =>
    ⟨fun hs => he.met s (Array.mem_toList_iff.1 hs),
      fun hs => Array.mem_toList_iff.2 (he.mem_of_met hdone hs)⟩
  have htaken : taken = List.range m.states.size := by
    have horder := (Search.inOrder_start a.startSet).run hrun
    rwa [Search.InOrder, hqueue, hstates, List.append_nil, List.nil_append] at horder
  subst htaken
  refine ⟨by rw [hcount, Array.length_toList], hstates ▸ w.found.size_le, w, hrun, ?_, hcompletes⟩
  exact ⟨htargets, hqueue, hstates⟩

/-- Where no automaton is made, there is one set more than allowed. -/
theorem lt_ncard_of_eq_error (h : a.IsExact t) {e : Error} (he : ofAnalysis a limits = .error e) :
    max 1 limits.states < {S | a.IsState S}.ncard ∧
      e = .overLimit .states (max 1 limits.states + 1) limits.states ∧
      ∃ (taken : List Nat) (w : Search limits), SearchEnds a taken w (.error e) ∧
        w.found.states.size = max 1 limits.states := by
  obtain ⟨taken, w, hsearch⟩ := exists_searchEnds a limits
  rw [he] at hsearch
  have hsound := Search.sound_start.run hsearch.1
  obtain ⟨s, hs, hnew, hsize, herror⟩ := hsound.failsWith hsearch.2.1
  refine ⟨?_, herror, taken, w, hsearch, hsize⟩
  -- the set without a place is one more than those that are found
  have hnodup : (s :: w.found.states.toList).Nodup :=
    List.nodup_cons.2 ⟨fun hmem => hnew (Array.mem_toList_iff.1 hmem), w.found.nodup_states⟩
  have hlen := Analysis.length_le_ncard_isState h hnodup fun u hu => by
    rcases List.mem_cons.1 hu with rfl | hu
    · exact hs
    · exact hsound.met u (Array.mem_toList_iff.1 hu)
  rwa [List.length_cons, Array.length_toList, hsize] at hlen

end Automaton

/-- An analysis has an automaton just if no more sets of positions can be reached than allowed,
where the first one is allowed in any case. The automaton then has one state for each set, and the
search has taken each state once. Otherwise the search ends when there are as many states as
allowed, and the limit is reported. -/
theorem automaton_has_states {d : Declaration} {limits : Limits} {a : Analysis}
    (ha : Analysis.ofDeclaration d limits = .ok a) (limits' : Limits) :
    {S | a.IsState S}.Finite ∧
    ((∃ m, Automaton.ofAnalysis a limits' = .ok m) ↔
      {S | a.IsState S}.ncard ≤ max 1 limits'.states) ∧
    (∀ m, Automaton.ofAnalysis a limits' = .ok m →
      m.states.size = {S | a.IsState S}.ncard ∧ ∃ w : Search limits',
        Automaton.SearchEnds a (List.range m.states.size) w (.ok m.states)) ∧
    (max 1 limits'.states < {S | a.IsState S}.ncard →
      ∃ e, e = .overLimit .states (max 1 limits'.states + 1) limits'.states ∧
        Automaton.ofAnalysis a limits' = .error e ∧
        ∃ (taken : List Nat) (w : Search limits'), Automaton.SearchEnds a taken w (.error e) ∧
          w.found.states.size = max 1 limits'.states) := by
  have h := Analysis.isExact_ofDeclaration ha
  refine ⟨Analysis.finite_isState h, ⟨?_, ?_⟩, ?_, ?_⟩
  · rintro ⟨m, hm⟩
    obtain ⟨hcount, hle, -⟩ := Automaton.size_states_eq h hm
    omega
  · intro hle
    cases hm : Automaton.ofAnalysis a limits' with
    | ok m => exact ⟨m, rfl⟩
    | error e =>
      have := (Automaton.lt_ncard_of_eq_error h hm).1
      omega
  · intro m hm
    obtain ⟨hcount, -, hsearch⟩ := Automaton.size_states_eq h hm
    exact ⟨hcount, hsearch⟩
  · intro hlt
    cases hm : Automaton.ofAnalysis a limits' with
    | ok m =>
      obtain ⟨hcount, hle, -⟩ := Automaton.size_states_eq h hm
      omega
    | error e =>
      obtain ⟨-, he, hsearch⟩ := Automaton.lt_ncard_of_eq_error h hm
      exact ⟨e, he, rfl, hsearch⟩

/-- The content `a`. -/
def oneContent : Declaration where
  nodes := #[.leaf (.element ⟨0, 1⟩) none]
  root := 0
  labels := #[]
  root_lt := by decide
  earlier := by decide

/-- The content `a` has two states, before and after the child, so one state is not enough. -/
theorem automaton_has_states_oneContent : ∃ a,
    Analysis.ofDeclaration oneContent .standard = .ok a ∧
    Automaton.ofAnalysis a ⟨1, 1, 1, 1⟩ = .error (.overLimit .states 2 1) := by
  have htree : oneContent.tree = .leaf 0 (.element ⟨0, 1⟩) none := by cbv
  obtain ⟨a, ha⟩ : ∃ a, Analysis.ofDeclaration oneContent .standard = .ok a := by
    rw [Analysis.exists_ofDeclaration_iff, htree]
    decide
  have h := Analysis.isExact_ofDeclaration ha
  have hleaves : a.leaves = #[⟨.element ⟨0, 1⟩, none, 0⟩] := by
    refine Array.toList_inj.1 ?_
    rw [h.leaves_eq, htree]
    rfl
  have hsize : a.leaves.size = 1 := by rw [hleaves]; rfl
  have hwords : oneContent.tree.marked a.positionOf? = .letter 0 := by
    rw [h.marked_eq_numbered, htree]
    rfl
  have hfirst : ∀ q, a.first.contains q = true ↔ q = 0 := fun q => by
    rw [h.first_iff, hwords, Language.begins_letter]
  have hlast : a.last.contains 0 = true := by
    rw [h.last_iff, hwords]
    exact ⟨[], rfl⟩
  have hnullable : ¬ a.nullable = true := by
    rw [h.nullable_iff, hwords]
    rintro ⟨⟩
  have hend : 1 ∈ a.after a.opening (.element ⟨0, 1⟩) :=
    ⟨0, .inl ((hfirst 0).2 rfl), ⟨.element ⟨0, 1⟩, none, 0⟩, by rw [hleaves]; rfl, by decide,
      .inr ⟨hlast, hsize.symm⟩⟩
  have hclass : .element ⟨0, 1⟩ ∈ a.inputClasses := by
    rw [Analysis.inputClasses, hleaves]
    decide
  have hopening : 1 ∉ a.opening := by
    rintro (h | ⟨h, -⟩)
    · cases (hfirst 1).1 h
    · exact hnullable h
  obtain ⟨hfinite, -, -, hmany⟩ := automaton_has_states ha ⟨1, 1, 1, 1⟩
  obtain ⟨e, rfl, he, -⟩ := hmany ((Set.one_lt_ncard hfinite).2
    ⟨_, .opening, _, .after .opening hclass ⟨1, hend⟩, fun heq => hopening (heq ▸ hend)⟩)
  exact ⟨a, ha, he⟩

end ElementContent
