import ElementContent.Proofs.Automaton.Bound
import ElementContent.Proofs.Automaton.Simulation
import ElementContent.Proofs.Position.Words
import Mathlib.Data.List.Chain
import Mathlib.Order.Bounds.Defs

/-!
# Paths of positions

The table of followers is a graph on the positions. Children that are read one by one go along its
*paths*: a path begins at a first position, each further position may come directly after the one
before it, and the leaf at each position takes the child that is read there. The automaton keeps no
paths, only one set of positions for all of them, and nothing is lost by that.

- `Language.prefixes_iff`: in a local language the beginnings of words are the paths of its letters.
- `Analysis.Path`: the paths along some children. `Analysis.Continues` and `Analysis.Completes` say
  what may come after one, and whether the content may end there.
- `Analysis.alive_iff_path`, `Analysis.image_iff_path`, `Analysis.viable_iff_path`: what the words of
  positions say of children, said by paths.
- `run_follows_paths`: a run ends in the set of all positions that continue a path along the
  children, and it stops at the first child that no path can go along.
-/

namespace ElementContent

open List (Forall₂)

/-! ## Beginnings of words -/

namespace Language

variable {α : Type} {a : Language α} {p q : α} {u : List α}

/-- A beginning of a word of a local language can be continued by any neighbour of its last letter.
-/
theorem prefixes_concat_iff (ha : a.IsLocal) :
    a.prefixes (u ++ [p] ++ [q]) ↔ a.prefixes (u ++ [p]) ∧ a.Adjacent p q := by
  constructor
  · rintro ⟨v, hv⟩
    exact ⟨⟨q :: v, by simpa using hv⟩, u, v, by simpa using hv⟩
  · rintro ⟨⟨v, hv⟩, u', v', huv'⟩
    have hcross : a (u ++ p :: q :: v') := ha (by simpa using hv) huv'
    exact ⟨v', by simpa using hcross⟩

/-- The beginnings of words of a local language are the sequences of neighbours that begin where a
word begins. -/
theorem prefixes_iff (ha : a.IsLocal) (hne : ∃ w, a w) :
    a.prefixes u ↔ (∀ p ∈ u.head?, a.Begins p) ∧ u.IsChain a.Adjacent := by
  induction u using List.reverseRecOn with
  | nil => exact iff_of_true hne ⟨by simp, .nil⟩
  | append_singleton u q ih =>
    rcases List.eq_nil_or_concat' u with rfl | ⟨x, p, rfl⟩
    · have hone : a.prefixes [q] ↔ a.Begins q := Iff.rfl
      simp [hone]
    · have hchain : (x ++ [p] ++ [q]).IsChain a.Adjacent ↔
          (x ++ [p]).IsChain a.Adjacent ∧ a.Adjacent p q := by
        rw [List.append_assoc, List.singleton_append, List.isChain_append_cons_cons]
        simp
      have hhead : (x ++ [p] ++ [q]).head? = (x ++ [p]).head? := by simp
      rw [prefixes_concat_iff ha, ih, hchain, hhead, and_assoc]

/-- A beginning of a word of a local language is a word if its last letter ends one. -/
theorem concat_iff (ha : a.IsLocal) : a (u ++ [p]) ↔ a.prefixes (u ++ [p]) ∧ a.Ends p := by
  constructor
  · exact fun h => ⟨⟨[], by simpa using h⟩, u, h⟩
  · rintro ⟨⟨v, hv⟩, u', hu'⟩
    exact ha (by simpa using hv) hu'

end Language

/-! ## Paths -/

namespace Analysis

/-- The second position may come directly after the first. -/
def Follows (a : Analysis) (p q : Nat) : Prop :=
  ∃ s, a.follow[p]? = some s ∧ s.contains q = true

/-- The positions lead along the children: each takes its child, the first one may begin, and each
further one may come directly after the one before it. -/
structure Path (a : Analysis) (ps : List Nat) (w : List Symbol) : Prop where
  takes : Forall₂ (TakesAt a.leaves.toList) ps w
  begins : ∀ p ∈ ps.head?, a.first.contains p = true
  follows : ps.IsChain a.Follows

/-- The position may come next, after those of a path. -/
def Continues (a : Analysis) (ps : List Nat) (q : Nat) : Prop :=
  match ps.getLast? with
  | some p => a.Follows p q
  | none => a.first.contains q = true

/-- The content may end after the positions of a path. -/
def Completes (a : Analysis) (ps : List Nat) : Prop :=
  match ps.getLast? with
  | some p => a.last.contains p = true
  | none => a.nullable = true

variable {t : Tree} {a : Analysis} {ps : List Nat} {w : List Symbol} {p q : Nat}

theorem follows_iff (h : a.IsExact t) :
    a.Follows p q ↔ (t.marked a.positionOf?).Adjacent p q :=
  h.exists_follow_iff

theorem path_iff (h : a.IsExact t) : a.Path ps w ↔
    (t.marked a.positionOf?).prefixes ps ∧ Forall₂ (TakesAt a.leaves.toList) ps w := by
  have hfollows : a.Follows = (t.marked a.positionOf?).Adjacent := by
    funext p q
    exact propext (follows_iff h)
  rw [Language.prefixes_iff h.isLocal (t.exists_marked _), ← hfollows]
  simp only [← h.first_iff]
  exact ⟨fun hpath => ⟨⟨hpath.begins, hpath.follows⟩, hpath.takes⟩,
    fun ⟨⟨hbegins, hfollows⟩, htakes⟩ => ⟨htakes, hbegins, hfollows⟩⟩

/-- What continues a beginning of a word makes it a longer one. -/
theorem continues_iff (h : a.IsExact t) (hps : (t.marked a.positionOf?).prefixes ps) :
    a.Continues ps q ↔ (t.marked a.positionOf?).prefixes (ps ++ [q]) := by
  unfold Continues
  rcases List.eq_nil_or_concat' ps with rfl | ⟨u, p, rfl⟩
  · exact h.first_iff q
  · rw [List.getLast?_concat, Language.prefixes_concat_iff h.isLocal, and_iff_right hps]
    exact follows_iff h

/-- A beginning of a word that may end is a word. -/
theorem completes_iff (h : a.IsExact t) (hps : (t.marked a.positionOf?).prefixes ps) :
    a.Completes ps ↔ t.marked a.positionOf? ps := by
  unfold Completes
  rcases List.eq_nil_or_concat' ps with rfl | ⟨u, p, rfl⟩
  · exact h.nullable_iff
  · rw [List.getLast?_concat, Language.concat_iff h.isLocal, and_iff_right hps]
    exact h.last_iff p

/-- A position is alive after children if it continues a path along them. -/
theorem alive_iff_path (h : a.IsExact t) :
    (t.marked a.positionOf?).Alive (TakesAt a.leaves.toList) w q ↔
      ∃ ps, a.Path ps w ∧ a.Continues ps q := by
  constructor
  · rintro ⟨ps, v, huv, htakes⟩
    have hps : (t.marked a.positionOf?).prefixes ps := ⟨q :: v, huv⟩
    exact ⟨ps, (path_iff h).2 ⟨hps, htakes⟩, (continues_iff h hps).2 ⟨v, by simpa using huv⟩⟩
  · rintro ⟨ps, hpath, hq⟩
    obtain ⟨hps, htakes⟩ := (path_iff h).1 hpath
    obtain ⟨v, hv⟩ := (continues_iff h hps).1 hq
    exact ⟨ps, v, by simpa using hv, htakes⟩

/-- Children can be read as a word if a path along them may end. -/
theorem image_iff_path (h : a.IsExact t) :
    (t.marked a.positionOf?).image (TakesAt a.leaves.toList) w ↔
      ∃ ps, a.Path ps w ∧ a.Completes ps := by
  constructor
  · rintro ⟨ps, hword, htakes⟩
    have hps : (t.marked a.positionOf?).prefixes ps := ⟨[], by simpa using hword⟩
    exact ⟨ps, (path_iff h).2 ⟨hps, htakes⟩, (completes_iff h hps).2 hword⟩
  · rintro ⟨ps, hpath, hend⟩
    obtain ⟨hps, htakes⟩ := (path_iff h).1 hpath
    exact ⟨ps, (completes_iff h hps).1 hend, htakes⟩

/-- Children are viable if there is a path along them. -/
theorem viable_iff_path (h : a.IsExact t) :
    (t.marked a.positionOf?).prefixes.image (TakesAt a.leaves.toList) w ↔ ∃ ps, a.Path ps w :=
  exists_congr fun _ => (path_iff h).symm

end Analysis

/-! ## Runs -/

namespace Automaton

variable {t : Tree} {a : Analysis} {m : Automaton} {s : PositionSet} {w : List Symbol} {i j : Nat}

/-- The members of the set after some children: the positions that continue a path along them, and
the mark of the end if a path may end. -/
theorem contains_iff_path (h : a.IsExact t) (hs : a.IsAfter t w s) (q : Nat) :
    s.contains q = true ↔ (∃ ps, a.Path ps w ∧ a.Continues ps q) ∨
      q = a.leaves.size ∧ ∃ ps, a.Path ps w ∧ a.Completes ps := by
  rw [hs, Analysis.ended, Language.alive_append_letter_iff, Analysis.alive_iff_path h,
    Analysis.image_iff_path h]

/-- The mark of the end continues no path. -/
theorem not_continues_end (h : a.IsExact t) {ps : List Nat} (hpath : a.Path ps w) :
    ¬ a.Continues ps a.leaves.size := by
  intro hend
  obtain ⟨leaf, hleaf⟩ := h.exists_leaf ((Analysis.alive_iff_path h).2 ⟨ps, hpath, hend⟩).occurs
  simp at hleaf

/-- A run stops at the first child that no path can go along. -/
theorem isLeast_of_run_eq_error (h : a.IsExact t) (hm : m.IsExplored t a)
    (hrun : m.run w = .error i) :
    IsLeast {i | i < w.length ∧ ¬ ∃ ps, a.Path ps (w.take (i + 1))} i := by
  obtain ⟨hi, hviable, hstop⟩ := run_eq_error h hm hrun
  rw [Analysis.viable_iff_path h] at hstop
  refine ⟨⟨hi, hstop⟩, fun n ⟨_, hn⟩ => Nat.le_of_not_lt fun hlt => hn ?_⟩
  -- what lies before the child that stops the run is viable
  rw [← Analysis.viable_iff_path h]
  have hprefix := Language.image_prefixes_take (n + 1) hviable
  rwa [List.take_take, Nat.min_eq_left hlt] at hprefix

end Automaton

/-- If some path leads along the children, the run ends in a state whose positions are those that
continue such a path, with the mark of the end among them just if a path may end, and that is when
the state accepts. If none does, the run stops at the first child that no path can go along. -/
theorem run_follows_paths {d : Declaration} {limits limits' : Limits} {a : Analysis}
    {m : Automaton} (ha : Analysis.ofDeclaration d limits = .ok a)
    (hm : Automaton.ofAnalysis a limits' = .ok m) (w : List Symbol) :
    ((∃ ps, a.Path ps w) → ∃ j s, m.run w = .ok j ∧ m.states[j]? = some s ∧
      (∀ q, q ≠ m.endPosition →
        (s.contains q = true ↔ ∃ ps, a.Path ps w ∧ a.Continues ps q)) ∧
      (s.contains m.endPosition = true ↔ ∃ ps, a.Path ps w ∧ a.Completes ps) ∧
      (m.isAccepting j = true ↔ s.contains m.endPosition = true)) ∧
    ((¬ ∃ ps, a.Path ps w) → ∃ i, m.run w = .error i ∧
      IsLeast {i | i < w.length ∧ ¬ ∃ ps, a.Path ps (w.take (i + 1))} i) := by
  have h := Analysis.isExact_ofDeclaration ha
  have hexplored := Automaton.isExplored_ofAnalysis h hm
  have hend : m.endPosition = a.leaves.size := by rw [Automaton.endPosition, hexplored.leaves_eq]
  cases hrun : m.run w with
  | ok j =>
    refine ⟨fun _ => ?_, fun hno => absurd ?_ hno⟩
    · obtain ⟨s, hj, hs⟩ := Automaton.run_eq_ok h hexplored hrun
      have hcontains := Automaton.contains_iff_path h hs
      refine ⟨j, s, rfl, hj, fun q hq => ?_, ?_, ?_⟩
      · rw [hcontains, or_iff_left fun hlast => hq (hlast.1.trans hend.symm)]
      · rw [hcontains, hend, and_iff_right rfl, or_iff_right]
        rintro ⟨ps, hpath, hcontinues⟩
        exact Automaton.not_continues_end h hpath hcontinues
      · rw [Automaton.isAccepting, hj]
    · exact (Analysis.viable_iff_path h).1 (Automaton.viable_of_run_eq_ok h hexplored hrun)
  | error i =>
    have hleast := Automaton.isLeast_of_run_eq_error h hexplored hrun
    refine ⟨fun hpath => ?_, fun _ => ⟨i, rfl, hleast⟩⟩
    -- a path along all children is one along those up to the child that stops the run
    have hviable := (Analysis.viable_iff_path h).2 hpath
    exact absurd ((Analysis.viable_iff_path h).1 (Language.image_prefixes_take (i + 1) hviable))
      hleast.1.2

/-- The content `(a, b) | (any, c)`, where `any` is any element: after an `a` both parts go on. -/
def forkedContent : Declaration where
  nodes := #[.leaf (.element ⟨0, 1⟩) none, .leaf (.element ⟨0, 2⟩) none, .group .sequence 0 1,
    .leaf (.any .any) none, .leaf (.element ⟨0, 3⟩) none, .group .sequence 3 4,
    .group .choice 2 5]
  root := 6
  labels := #[]
  root_lt := by decide
  earlier := by decide

theorem tree_forkedContent : forkedContent.tree = .group 6 .choice
    (.group 2 .sequence (.leaf 0 (.element ⟨0, 1⟩) none) (.leaf 1 (.element ⟨0, 2⟩) none))
    (.group 5 .sequence (.leaf 3 (.any .any) none) (.leaf 4 (.element ⟨0, 3⟩) none)) := by
  cbv

theorem words_forkedContent {a : Analysis} (h : a.IsExact forkedContent.tree) {u : List Nat} :
    forkedContent.tree.marked a.positionOf? u ↔ u = [0, 1] ∨ u = [2, 3] := by
  rw [h.marked_eq_numbered, tree_forkedContent]
  constructor
  · rintro (⟨x, y, rfl, rfl, rfl⟩ | ⟨x, y, rfl, rfl, rfl⟩)
    · exact .inl rfl
    · exact .inr rfl
  · rintro (rfl | rfl)
    · exact .inl ⟨[0], [1], rfl, rfl, rfl⟩
    · exact .inr ⟨[2], [3], rfl, rfl, rfl⟩

theorem run_follows_paths_forkedContent : ∃ a m,
    Analysis.ofDeclaration forkedContent .standard = .ok a ∧
    Automaton.ofAnalysis a .standard = .ok m ∧
    (∃ j s, m.run [⟨0, 1⟩] = .ok j ∧ m.states[j]? = some s ∧ s.contains 1 = true ∧
      s.contains 3 = true ∧ m.isAccepting j = false) ∧
    m.run [⟨0, 1⟩, ⟨0, 1⟩] = .error 1 := by
  obtain ⟨a, ha⟩ : ∃ a, Analysis.ofDeclaration forkedContent .standard = .ok a := by
    rw [Analysis.exists_ofDeclaration_iff, tree_forkedContent]
    decide
  have h := Analysis.isExact_ofDeclaration ha
  have hleaves : a.leaves.toList = forkedContent.tree.leaves := h.leaves_eq
  rw [tree_forkedContent] at hleaves
  have hroom : 2 ^ (a.leaves.size + 1) ≤ Limits.standard.states := by
    rw [← Array.length_toList, hleaves]
    decide
  obtain ⟨m, hm⟩ := Automaton.exists_ofAnalysis h hroom
  have hend : m.endPosition = 4 := by
    rw [Automaton.endPosition, (Automaton.leaves_and_classes_ofAnalysis hm).1,
      ← Array.length_toList, hleaves]
    rfl
  -- an `a` is read at the first leaf of either part
  have htakes : ∀ p ∈ [0, 2], Forall₂ (TakesAt a.leaves.toList) [p] [⟨0, 1⟩] := by
    rw [hleaves]
    simp [TakesAt, Tree.leaves, Term.takesChild, Term.accepts, Wildcard.allows,
      Symbol.isReserved, NamespaceId.reserved]
  have h0 : a.Path [0] [⟨0, 1⟩] := (Analysis.path_iff h).2
    ⟨⟨[1], (words_forkedContent h).2 (.inl rfl)⟩, htakes 0 (by decide)⟩
  have h2 : a.Path [2] [⟨0, 1⟩] := (Analysis.path_iff h).2
    ⟨⟨[3], (words_forkedContent h).2 (.inr rfl)⟩, htakes 2 (by decide)⟩
  refine ⟨a, m, ha, hm, ?_, ?_⟩
  · obtain ⟨j, s, hrun, hj, hcontains, hlast, hacc⟩ := (run_follows_paths ha hm _).1 ⟨_, h0⟩
    refine ⟨j, s, hrun, hj, ?_, ?_, ?_⟩
    · rw [hcontains 1 (by rw [hend]; decide)]
      exact ⟨[0], h0, (Analysis.continues_iff h ((Analysis.path_iff h).1 h0).1).2
        ⟨[], (words_forkedContent h).2 (.inl rfl)⟩⟩
    · rw [hcontains 3 (by rw [hend]; decide)]
      exact ⟨[2], h2, (Analysis.continues_iff h ((Analysis.path_iff h).1 h2).1).2
        ⟨[], (words_forkedContent h).2 (.inr rfl)⟩⟩
    · rw [Bool.eq_false_iff, ne_eq, hacc, hlast]
      rintro ⟨ps, hpath, hcompletes⟩
      have hword := (Analysis.completes_iff h ((Analysis.path_iff h).1 hpath).1).1 hcompletes
      have hlength := hpath.takes.length_eq
      rcases (words_forkedContent h).1 hword with rfl | rfl <;> cases hlength
  · have hno : ¬ ∃ ps, a.Path ps [⟨0, 1⟩, ⟨0, 1⟩] := by
      rintro ⟨ps, hpath⟩
      obtain ⟨⟨v, hv⟩, htakes⟩ := (Analysis.path_iff h).1 hpath
      rw [hleaves] at htakes
      obtain ⟨p, u, -, hu, rfl⟩ := List.forall₂_cons_right_iff.1 htakes
      obtain ⟨q, u, ⟨leaf, hleaf, haccepts⟩, -, rfl⟩ := List.forall₂_cons_right_iff.1 hu
      -- the second position is that of `b` or that of `c`, and neither takes an `a`
      have hq : q = 1 ∨ q = 3 := ((words_forkedContent h).1 hv).imp
        (fun hv => (List.cons.inj (List.cons.inj hv).2).1)
        fun hv => (List.cons.inj (List.cons.inj hv).2).1
      rcases hq with rfl | rfl <;> cases hleaf <;> cases haccepts
    obtain ⟨i, hrun, ⟨hi, hstop⟩, -⟩ := (run_follows_paths ha hm _).2 hno
    by_cases hzero : i = 0
    · rw [hzero] at hstop
      exact absurd ⟨_, h0⟩ hstop
    · have hone : i = 1 := by
        simp only [List.length_cons, List.length_nil] at hi
        omega
      rwa [hone] at hrun

end ElementContent
