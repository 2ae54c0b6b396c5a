import ElementContent.Model.Basic
import ElementContent.Proofs.Automaton.Alphabet
import ElementContent.Proofs.Automaton.Exploration
import ElementContent.Proofs.Model.Outcome

/-!
# Runs of an automaton

After any children, the automaton of an analysis stands in the state of all positions that are alive
after them; it has stopped exactly if nothing is alive, and then at the first child that made it so.

- `Analysis.IsAfter`: a set holds what is alive after some children.
- `Automaton.isAfter_step`, `Automaton.not_alive_step`: one child more.
- `Automaton.run_eq_ok`, `Automaton.run_eq_error`: a whole run.
- `Automaton.exists_state_of_alive`, `Automaton.exists_isAfter_of_reached`: the states are the
  sets of what is alive after children.
- `Automaton.isRight_validate`, `Automaton.isRight_expected`: the automaton gives the right answers.
-/

namespace ElementContent

namespace Analysis

variable {t : Tree} {a : Analysis} {s : PositionSet} {w : List Symbol} {x : Symbol} {c q : Nat}

/-- The set holds what is alive after the children, the mark of the end among them. -/
def IsAfter (a : Analysis) (t : Tree) (w : List Symbol) (s : PositionSet) : Prop :=
  ∀ q, s.contains q = true ↔ (a.ended t).Alive (TakesAt a.leaves.toList) w q

theorem isLocal_ended (h : a.IsExact t) : (a.ended t).IsLocal := by
  refine Language.isLocal_append h.isLocal (Language.isLocal_letter _) ?_
  intro p hp hend
  obtain rfl := Language.occurs_letter.1 hend
  obtain ⟨leaf, hleaf⟩ := h.exists_leaf hp
  simp at hleaf

theorem isAfter_startSet (h : a.IsExact t) : a.IsAfter t [] a.startSet := by
  intro q
  rw [contains_startSet h, Language.alive_nil_iff]

/-- By the class of a child, a set leads to what is alive after that child. -/
theorem leads_iff_alive (h : a.IsExact t) (hs : a.IsAfter t w s)
    (hc : classOf? (alphabet (a.leaves.toList.map (·.term))) x = some c) :
    a.Leads t (alphabet (a.leaves.toList.map (·.term))) s c q ↔
      (a.ended t).Alive (TakesAt a.leaves.toList) (w ++ [x]) q := by
  have hmem : ∀ {p : Nat} {leaf : Leaf}, a.leaves[p]? = some leaf →
      leaf.term ∈ a.leaves.toList.map (·.term) := by
    intro p leaf hleaf
    rw [← Array.getElem?_toList] at hleaf
    exact List.mem_map_of_mem (List.mem_of_getElem? hleaf)
  rw [Language.alive_concat_iff (isLocal_ended h)]
  constructor
  · rintro ⟨p, leaf, cls, hp, hleaf, hcls, htakes, hpq⟩
    refine ⟨p, (hs p).1 hp, ⟨leaf, by rwa [Array.getElem?_toList], ?_⟩, hpq⟩
    exact (accepts_iff_takes_class (hmem hleaf)).2 ⟨c, cls, hc, hcls, htakes⟩
  · rintro ⟨p, hp, ⟨leaf, hleaf, haccepts⟩, hpq⟩
    rw [Array.getElem?_toList] at hleaf
    obtain ⟨c', cls, hc', hcls, htakes⟩ := (accepts_iff_takes_class (hmem hleaf)).1 haccepts
    obtain rfl := Option.some.inj (hc.symm.trans hc')
    exact ⟨p, leaf, cls, (hs p).2 hp, hleaf, hcls, htakes, hpq⟩

/-- A child without a class leaves nothing alive. -/
theorem not_alive_of_classOf?_eq_none (h : a.IsExact t)
    (hc : classOf? (alphabet (a.leaves.toList.map (·.term))) x = none) :
    ¬ (a.ended t).Alive (TakesAt a.leaves.toList) (w ++ [x]) q := by
  rw [Language.alive_concat_iff (isLocal_ended h)]
  rintro ⟨p, -, ⟨leaf, hleaf, haccepts⟩, -⟩
  have hmem := List.mem_map_of_mem (f := (·.term)) (List.mem_of_getElem? hleaf)
  obtain ⟨c, cls, hc', -⟩ := (accepts_iff_takes_class hmem).1 haccepts
  rw [hc] at hc'
  cases hc'

end Analysis

namespace Automaton

open Analysis (IsAfter)

/-! ## One child -/

variable {t : Tree} {a : Analysis} {m : Automaton} {s : PositionSet} {w : List Symbol} {x : Symbol}
  {i j : Nat}

theorem isAfter_step (h : a.IsExact t) (hm : m.IsExplored t a) (hi : m.states[i]? = some s)
    (hs : a.IsAfter t w s) (hstep : m.step? i x = some j) :
    ∃ target, m.states[j]? = some target ∧ a.IsAfter t (w ++ [x]) target := by
  obtain ⟨c, hc, hnext⟩ := Option.bind_eq_some_iff.1 hstep
  obtain ⟨target, htarget, hiff⟩ := hm.next_some hi hnext
  rw [classOf?, hm.classes_eq] at hc
  rw [hm.classes_eq] at hiff
  exact ⟨target, htarget, fun q => (hiff q).trans (Analysis.leads_iff_alive h hs hc)⟩

theorem not_alive_step (h : a.IsExact t) (hm : m.IsExplored t a) (hi : m.states[i]? = some s)
    (hs : a.IsAfter t w s) (hstep : m.step? i x = none) (q : Nat) :
    ¬ (a.ended t).Alive (TakesAt a.leaves.toList) (w ++ [x]) q := by
  have hclass : m.classOf? x = ElementContent.classOf? (alphabet (a.leaves.toList.map (·.term))) x
      := by rw [classOf?, hm.classes_eq]
  cases hc : m.classOf? x with
  | none => exact Analysis.not_alive_of_classOf?_eq_none h (hclass.symm.trans hc)
  | some c =>
    have hnext : m.next? i c = none := by
      rw [step?, hc] at hstep
      exact hstep
    have hlt : c < m.classes.length := by
      obtain ⟨-, cls, hcls, -⟩ := (classOf?_eq_some_iff (nodup_alphabet _)).1 (hclass.symm.trans hc)
      rw [hm.classes_eq]
      exact (List.getElem?_eq_some_iff.1 hcls).1
    have hno := hm.next_none hi hlt hnext q
    rw [hm.classes_eq] at hno
    exact fun hq => hno ((Analysis.leads_iff_alive h hs (hclass.symm.trans hc)).2 hq)

/-! ## Runs -/

theorem runFrom_append (m : Automaton) (i n : Nat) (w v : List Symbol) :
    m.runFrom i n (w ++ v) = (m.runFrom i n w).bind fun j => m.runFrom j (n + w.length) v := by
  induction w generalizing i n with
  | nil => rfl
  | cons x w ih =>
    rw [List.cons_append, runFrom, runFrom]
    cases m.step? i x with
    | none => rfl
    | some k =>
      simp only
      rw [ih, List.length_cons, Nat.add_right_comm, Nat.add_assoc]

theorem run_append (m : Automaton) (w v : List Symbol) :
    m.run (w ++ v) = (m.run w).bind fun j => m.runFrom j w.length v := by
  rw [run, runFrom_append, Nat.zero_add]
  rfl

theorem run_concat (m : Automaton) (w : List Symbol) (x : Symbol) :
    m.run (w ++ [x]) = (m.run w).bind fun j =>
      match m.step? j x with
      | some k => .ok k
      | none => .error w.length := by
  rw [run_append]
  rfl

/-- A run that does not stop ends in the state of what is alive. -/
theorem run_eq_ok (h : a.IsExact t) (hm : m.IsExplored t a) (hrun : m.run w = .ok j) :
    ∃ s, m.states[j]? = some s ∧ a.IsAfter t w s := by
  induction w using List.reverseRecOn generalizing j with
  | nil =>
    obtain rfl := Except.ok.inj hrun
    exact ⟨_, hm.start, Analysis.isAfter_startSet h⟩
  | append_singleton w x ih =>
    rw [run_concat] at hrun
    cases hw : m.run w with
    | error n =>
      rw [hw] at hrun
      cases hrun
    | ok i =>
      obtain ⟨s, hi, hs⟩ := ih hw
      rw [hw] at hrun
      cases hstep : m.step? i x with
      | none => simp [Except.bind, hstep] at hrun
      | some k =>
        obtain rfl : k = j := by simpa [Except.bind, hstep] using hrun
        exact isAfter_step h hm hi hs hstep

/-- Every state that is reached has a member. -/
theorem exists_contains_of_reached (h : a.IsExact t) {classes : List InputClass}
    (hs : a.Reached t classes s) : ∃ q, s.contains q = true := by
  cases hs with
  | start =>
    -- some word, with the mark of the end behind it, begins with a letter
    obtain ⟨u, hu⟩ := Tree.exists_marked a.positionOf? t
    have hended : a.ended t (u ++ [a.leaves.size]) := ⟨u, _, rfl, hu, rfl⟩
    cases u with
    | nil => exact ⟨_, (Analysis.contains_startSet h _).2 ⟨[], hended⟩⟩
    | cons p u => exact ⟨p, (Analysis.contains_startSet h p).2 ⟨_, hended⟩⟩
  | step _ _ hne => exact hne

theorem viable_of_run_eq_ok (h : a.IsExact t) (hm : m.IsExplored t a) (hrun : m.run w = .ok j) :
    (t.marked a.positionOf?).prefixes.image (TakesAt a.leaves.toList) w := by
  obtain ⟨s, hj, hs⟩ := run_eq_ok h hm hrun
  obtain ⟨q, hq⟩ := exists_contains_of_reached h (hm.reached s (Array.mem_of_getElem? hj))
  exact (Language.image_prefixes_iff_alive_append_letter a.leaves.size).2 ⟨q, (hs q).1 hq⟩

/-- A run stops at the first child that leaves nothing alive. -/
theorem run_eq_error (h : a.IsExact t) (hm : m.IsExplored t a) (hrun : m.run w = .error i) :
    i < w.length ∧
      (t.marked a.positionOf?).prefixes.image (TakesAt a.leaves.toList) (w.take i) ∧
      ¬ (t.marked a.positionOf?).prefixes.image (TakesAt a.leaves.toList) (w.take (i + 1)) := by
  induction w using List.reverseRecOn with
  | nil => cases hrun
  | append_singleton w x ih =>
    rw [run_concat] at hrun
    cases hw : m.run w with
    | error n =>
      -- the run had stopped before the last child
      rw [hw] at hrun
      obtain rfl : n = i := Except.error.inj hrun
      obtain ⟨hi, hviable, hstop⟩ := ih hw
      rw [List.take_append_of_le_length (Nat.le_of_lt hi), List.take_append_of_le_length hi,
        List.length_append]
      exact ⟨Nat.lt_add_right _ hi, hviable, hstop⟩
    | ok j =>
      obtain ⟨s, hj, hs⟩ := run_eq_ok h hm hw
      rw [hw] at hrun
      cases hstep : m.step? j x with
      | some k => simp [Except.bind, hstep] at hrun
      | none =>
        obtain rfl : w.length = i := by simpa [Except.bind, hstep] using hrun
        refine ⟨by simp, ?_, ?_⟩
        · rw [List.take_left]
          exact viable_of_run_eq_ok h hm hw
        · have htake : (w ++ [x]).take (w.length + 1) = w ++ [x] :=
            List.take_of_length_le (by simp)
          rw [htake, Language.image_prefixes_iff_alive_append_letter a.leaves.size]
          rintro ⟨q, hq⟩
          exact not_alive_step h hm hj hs hstep q hq

/-! ## States -/

/-- Where something is alive, there is a state of all that is. -/
theorem exists_state_of_alive (h : a.IsExact t) (hm : m.IsExplored t a) {q : Nat}
    (hq : (a.ended t).Alive (TakesAt a.leaves.toList) w q) : ∃ s ∈ m.states, a.IsAfter t w s := by
  cases hrun : m.run w with
  | ok j =>
    obtain ⟨s, hj, hs⟩ := run_eq_ok h hm hrun
    exact ⟨s, Array.mem_of_getElem? hj, hs⟩
  | error i =>
    obtain ⟨-, -, hstop⟩ := run_eq_error h hm hrun
    have hviable := (Language.image_prefixes_iff_alive_append_letter a.leaves.size).2 ⟨q, hq⟩
    exact absurd (Language.image_prefixes_take (i + 1) hviable) hstop

/-- Every state that is reached is that of what is alive after some children, none of them reserved,
if every class has a child. -/
theorem exists_isAfter_of_reached (h : a.IsExact t)
    (hchild : ∀ c ∈ alphabet (a.leaves.toList.map (·.term)),
      ∃ x, x.isReserved = false ∧ ClassOf (alphabet (a.leaves.toList.map (·.term))) x c)
    (hs : a.Reached t (alphabet (a.leaves.toList.map (·.term))) s) :
    ∃ w, (∀ x ∈ w, x.isReserved = false) ∧ a.IsAfter t w s := by
  induction hs with
  | start => exact ⟨[], by simp, Analysis.isAfter_startSet h⟩
  | @step s target c _ hiff hne ih =>
    obtain ⟨w, hw, hs⟩ := ih
    obtain ⟨q, hq⟩ := hne
    obtain ⟨-, -, cls, -, -, hcls, -⟩ := (hiff q).1 hq
    obtain ⟨x, hx, hclass⟩ := hchild cls (List.mem_of_getElem? hcls)
    have hc := (classOf?_eq_some_iff (nodup_alphabet _)).2 ⟨hx, cls, hcls, hclass⟩
    refine ⟨w ++ [x], ?_, fun q => (hiff q).trans (Analysis.leads_iff_alive h hs hc)⟩
    intro y hy
    rcases List.mem_append.1 hy with hy | hy
    · exact hw y hy
    · exact List.mem_singleton.1 hy ▸ hx

/-! ## Answers -/

/-- The content may end in a state if the children before it are a word. -/
theorem isAccepting_iff (h : a.IsExact t) (hm : m.IsExplored t a) (hj : m.states[j]? = some s)
    (hs : a.IsAfter t w s) :
    m.isAccepting j = true ↔ (t.marked a.positionOf?).image (TakesAt a.leaves.toList) w := by
  have hend : ¬ (t.marked a.positionOf?).Alive (TakesAt a.leaves.toList) w a.leaves.size := by
    intro halive
    obtain ⟨leaf, hleaf⟩ := h.exists_leaf halive.occurs
    simp at hleaf
  rw [isAccepting, hj, endPosition, hm.leaves_eq]
  simp only
  rw [hs, Analysis.ended, Language.alive_append_letter_iff]
  simp [hend]

theorem isRight_validate (h : a.IsExact t) (hm : m.IsExplored t a) (w : List Symbol) :
    (m.validate w).IsRight (TakesAt t.leaves) (t.numbered 0) w := by
  rw [← h.marked_eq_numbered, ← h.leaves_eq, validate]
  cases hrun : m.run w with
  | error i =>
    obtain ⟨hi, hviable, hstop⟩ := run_eq_error h hm hrun
    refine Verdict.isRight_failsAt (fun hw => ?_) (Nat.le_of_lt hi) hviable fun _ => hstop
    -- a beginning of a word would be viable
    have hviable := Language.image_prefixes_of_image hw
    exact hstop (Language.image_prefixes_take (i + 1) hviable)
  | ok j =>
    obtain ⟨s, hj, hs⟩ := run_eq_ok h hm hrun
    have hiff := isAccepting_iff h hm hj hs
    by_cases hacc : m.isAccepting j = true
    · simp only [hacc, if_true]
      exact hiff.1 hacc
    · -- all the children are viable, but they are no word
      simp only [hacc]
      refine Verdict.isRight_failsAt (fun hw => hacc (hiff.2 hw)) (Nat.le_refl _) ?_
        fun hlt => absurd hlt (Nat.lt_irrefl _)
      rw [List.take_length]
      exact viable_of_run_eq_ok h hm hrun

theorem isRight_expected (h : a.IsExact t) (hm : m.IsExplored t a) (w : List Symbol) :
    Expectation.IsRight t.leaves (t.numbered 0) w (m.expected w) := by
  rw [← h.marked_eq_numbered, ← h.leaves_eq, expected]
  cases hrun : m.run w with
  | error i =>
    obtain ⟨-, -, hstop⟩ := run_eq_error h hm hrun
    intro hw
    exact hstop (Language.image_prefixes_take (i + 1) hw)
  | ok j =>
    obtain ⟨s, hj, hs⟩ := run_eq_ok h hm hrun
    refine ⟨viable_of_run_eq_ok h hm hrun, s.members.filter (· < a.leaves.size), m.isAccepting j,
      s.pairwise_members.filter _, fun p => ?_, isAccepting_iff h hm hj hs, ?_⟩
    · rw [List.mem_filter, PositionSet.mem_members, hs, Analysis.ended,
        Language.alive_append_letter_iff, decide_eq_true_iff]
      constructor
      · rintro ⟨halive | ⟨rfl, -⟩, hlt⟩
        · exact halive
        · exact absurd hlt (Nat.lt_irrefl _)
      · intro halive
        obtain ⟨leaf, hleaf⟩ := h.exists_leaf halive.occurs
        exact ⟨.inl halive, (Array.getElem?_eq_some_iff.1 hleaf).1⟩
    · rw [expectation, hj]
      simp only [liveLeaves, hm.leaves_eq, List.map_filterMap, List.filterMap_filter]
      congr 1
      refine List.filterMap_congr fun p _ => ?_
      by_cases hp : p < a.leaves.size
      · simp [hp]
      · simp [hp]

end Automaton

end ElementContent
