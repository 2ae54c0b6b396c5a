import ElementContent.Content.Repetition
import ElementContent.Occurrence.Attribute
import ElementContent.Proofs.Text.Numeral

/-!
# What occurrence attributes state

Each of the two attributes states a bound of its own: a numeral, or `unbounded` for the greatest
number, or 1 where the attribute is absent. The reader looks at `minOccurs` first and compares the
bounds in two of three branches, as bounds of which the greater is missing are in order in any case.
So the attributes are read just if each states a bound and the bounds are in order.

- `StatesMin`, `StatesMax`: an attribute states a bound.
- `Occurrence.ofAttributes_eq_ok_iff`: what the reader accepts, and the bounds that it gives.
- `Draft.repeated_ne_invertedBounds`: bounds in order are never rejected as inverted.
- `bounds_read_exactly`: all this, and that written bounds are read back.
-/

namespace ElementContent

/-- The attribute states the least number of occurrences: it is absent, which means 1, or it holds a
numeral with blanks around it or not. -/
def StatesMin : Option String → UInt32 → Prop
  | none, min => min = 1
  | some s, min => ∃ numeral, IsPadded s.toList numeral ∧ IsNumeral numeral min.toNat

/-- The attribute states the greatest number of occurrences: it is absent, which means 1, or it
holds a numeral or the word `unbounded`, with blanks around it or not. -/
def StatesMax : Option String → Option UInt32 → Prop
  | none, max => max = some 1
  | some s, none => IsPadded s.toList "unbounded".toList
  | some s, some max => ∃ numeral, IsPadded s.toList numeral ∧ IsNumeral numeral max.toNat

/-- The text for a greatest number of occurrences. -/
def maxText : Option UInt32 → String
  | none => "unbounded"
  | some max => toString max.toNat

/-- What is read of `minOccurs` is what it states. -/
theorem readMin_eq_ok_iff {mn : Option String} {min : UInt32} :
    readMin mn = .ok min ↔ StatesMin mn min := by
  cases mn with
  | none => exact ⟨fun h => (Except.ok.inj h).symm, fun h => congrArg _ (Eq.symm h)⟩
  | some s =>
    show _ ↔ ∃ numeral, IsPadded s.toList numeral ∧ IsNumeral numeral min.toNat
    rw [← word?_trim_eq_some_iff, readMin, trimmedWord?]
    cases word? (trim s.toList) with
    | none => simp
    | some n => simp

/-- A numeral is not the word `unbounded`. -/
theorem not_isNumeral_unbounded (n : Nat) : ¬ IsNumeral "unbounded".toList n := by
  rw [isNumeral_iff]
  have hnone : digitsValue? (unsigned "unbounded".toList) = none := by decide +kernel
  rw [hnone]
  exact fun h => nomatch h

/-- The word is what trimming leaves of a text with blanks around it. -/
theorem trimText_eq_unbounded_iff {s : String} :
    trimText s = "unbounded" ↔ IsPadded s.toList "unbounded".toList := by
  apply trimText_eq_iff
  · rintro _ ⟨⟩
    decide
  · rintro _ ⟨⟩
    decide

/-- What stands in `maxOccurs` is known from the text without the blanks around it. -/
theorem statesMax_some_iff {s : String} {max : Option UInt32} : StatesMax (some s) max ↔
    if trimText s = "unbounded" then max = none else max ≠ none ∧ max = word? (trim s.toList) := by
  by_cases hword : trimText s = "unbounded"
  · rw [if_pos hword]
    cases max with
    | none => exact iff_of_true (trimText_eq_unbounded_iff.1 hword) rfl
    | some m =>
      refine iff_of_false (fun h => ?_) nofun
      obtain ⟨numeral, hpadded, hnumeral⟩ := h
      have htrim : trim s.toList = "unbounded".toList := by
        rw [← hword, trimText, String.toList_ofList]
      rw [← hnumeral.trim_eq_iff.2 hpadded, htrim] at hnumeral
      exact not_isNumeral_unbounded _ hnumeral
  · rw [if_neg hword]
    cases max with
    | none => exact iff_of_false (fun h => hword (trimText_eq_unbounded_iff.2 h)) fun h => h.1 rfl
    | some m =>
      rw [eq_comm (a := some m), word?_trim_eq_some_iff]
      exact ⟨fun h => ⟨nofun, h⟩, fun h => h.2⟩

namespace Occurrence

variable {mn mx : Option String} {o : Occurrence}

/-- The attributes are read just if each states a bound and the bounds are in order, and what is
read are these bounds. -/
theorem ofAttributes_eq_ok_iff : ofAttributes mn mx = .ok o ↔
    StatesMin mn o.min ∧ StatesMax mx o.max ∧ ∀ max, o.max = some max → o.min ≤ max := by
  obtain ⟨min, max⟩ := o
  rw [← readMin_eq_ok_iff]
  unfold ofAttributes
  cases hmin : readMin mn with
  | error e => simp [bind, Except.bind]
  | ok n =>
    simp only [bind, Except.bind, Except.ok.injEq]
    cases mx with
    | none =>
      simp only [Option.map_none, StatesMax]
      -- the default of `maxOccurs` is compared as well
      by_cases hn : 1 < n
      · rw [if_pos hn]
        refine iff_of_false (fun h => ?_) ?_
        · cases h
        · rintro ⟨rfl, rfl, hle⟩
          exact absurd (hle 1 rfl) (by simpa using hn)
      · rw [if_neg hn, Except.ok.injEq, Occurrence.mk.injEq]
        refine and_congr_right fun hmin => ⟨?_, fun h => h.1.symm⟩
        rintro rfl
        refine ⟨rfl, fun max hmax => ?_⟩
        rw [← Option.some.inj hmax, ← hmin]
        exact UInt32.not_lt.1 hn
    | some s =>
      rw [statesMax_some_iff]
      simp only [Option.map_some]
      by_cases hword : trimText s = "unbounded"
      · -- without a greatest number there is nothing to compare
        rw [if_pos hword, if_pos hword, Except.ok.injEq, Occurrence.mk.injEq]
        refine and_congr_right fun _ => ⟨?_, fun h => h.1.symm⟩
        rintro rfl
        refine ⟨rfl, fun max hmax => ?_⟩
        cases hmax
      · rw [if_neg hword, if_neg hword, trimText, String.toList_ofList]
        cases hmax : word? (trim s.toList) with
        | none =>
          refine iff_of_false (fun h => ?_) fun h => h.2.1.1 h.2.1.2
          cases h
        | some m =>
          by_cases hlt : m < n
          · simp only [if_pos hlt]
            refine iff_of_false (fun h => ?_) ?_
            · cases h
            · rintro ⟨rfl, ⟨-, rfl⟩, hle⟩
              exact absurd (hle m rfl) (UInt32.not_le.2 hlt)
          · simp only [if_neg hlt, Except.ok.injEq, Occurrence.mk.injEq]
            refine and_congr_right fun hmin => ⟨?_, fun h => h.1.2.symm⟩
            rintro rfl
            refine ⟨⟨Option.some_ne_none m, rfl⟩, fun max hmax => ?_⟩
            rw [← Option.some.inj hmax, ← hmin]
            exact UInt32.not_lt.1 hlt

end Occurrence

/-- Bounds that are in order are never rejected as inverted; they may ask for too many copies. -/
theorem Draft.repeated_ne_invertedBounds {o : Occurrence} (h : o.isConsistent = true) (d : Draft)
    (node i : Nat) (min : UInt32) (max : Option UInt32) :
    d.repeated node o ≠ .error (.reported (.content (.invertedBounds i min max))) := by
  rw [ne_eq, repeated_eq_error_iff]
  unfold checkExpansion
  rw [if_pos h]
  split
  · -- the only other error speaks of the limit
    unfold Limits.check
    split <;> simp [Except.mapError]
  · simp

/-- Occurrence attributes are read just if `minOccurs` is absent or holds a numeral of 32 bits,
`maxOccurs` is absent or holds such a numeral or `unbounded`, and the bounds that they state are in
order; what is read are these bounds. So they are consistent, and no draft rejects them as inverted.
Consistent bounds are read back from texts in which they are written in decimal, whatever blanks
stand around them. -/
theorem bounds_read_exactly :
    (∀ mn mx o, Occurrence.ofAttributes mn mx = .ok o ↔
      StatesMin mn o.min ∧ StatesMax mx o.max ∧ ∀ max, o.max = some max → o.min ≤ max) ∧
    (∀ mn mx o, Occurrence.ofAttributes mn mx = .ok o → o.isConsistent = true ∧
      ∀ (d : Draft) node i min max,
        d.repeated node o ≠ .error (.reported (.content (.invertedBounds i min max)))) ∧
    ∀ (o : Occurrence) (mn mx : String), o.isConsistent = true →
      IsPadded mn.toList (toString o.min.toNat).toList →
      IsPadded mx.toList (maxText o.max).toList →
      Occurrence.ofAttributes (some mn) (some mx) = .ok o := by
  have hconsistent : ∀ o : Occurrence,
      o.isConsistent = true ↔ ∀ max, o.max = some max → o.min ≤ max := by
    intro o
    unfold Occurrence.isConsistent
    cases o.max with
    | none => simp
    | some max => simp
  refine ⟨fun mn mx o => Occurrence.ofAttributes_eq_ok_iff, fun mn mx o h => ?_,
    fun o mn mx ho hmn hmx => ?_⟩
  · have ho := (hconsistent o).2 (Occurrence.ofAttributes_eq_ok_iff.1 h).2.2
    exact ⟨ho, Draft.repeated_ne_invertedBounds ho⟩
  · refine Occurrence.ofAttributes_eq_ok_iff.2 ⟨⟨_, hmn, isNumeral_toString _⟩, ?_,
      (hconsistent o).1 ho⟩
    cases hmax : o.max with
    | none =>
      rw [hmax] at hmx
      exact hmx
    | some max =>
      rw [hmax] at hmx
      exact ⟨_, hmx, isNumeral_toString _⟩

/-- A plus sign, zeros in front and blanks of several kinds; the greatest number of 32 bits. And
bounds without a greatest number, as they are written. -/
theorem bounds_read_exactly_padded :
    Occurrence.ofAttributes (some "\t+007\u00a0") (some " 4294967295\n") =
      .ok ⟨7, some 4294967295⟩ ∧
    Occurrence.ofAttributes (some "2") (some "\n unbounded") = .ok ⟨2, none⟩ := by
  obtain ⟨hread, -, hwritten⟩ := bounds_read_exactly
  constructor
  · refine (hread _ _ _).2 ⟨⟨['+', '0', '0', '7'], ⟨['\t'], ['\u00a0'], by decide +kernel, ?_, ?_⟩,
      ['0', '0', '7'], .inr rfl, by decide, ?_, by decide⟩,
      ⟨"4294967295".toList, ⟨[' '], ['\n'], by decide +kernel, ?_, ?_⟩, ?_⟩, ?_⟩
    · exact List.forall_mem_singleton.2 (by decide)
    · exact List.forall_mem_singleton.2 (by decide)
    · simp only [List.forall_mem_cons, List.not_mem_nil, false_implies, implies_true]
      decide
    · exact List.forall_mem_singleton.2 (by decide)
    · exact List.forall_mem_singleton.2 (by decide)
    · exact isNumeral_toString 4294967295
    · rintro max ⟨⟩
      decide
  · refine hwritten ⟨2, none⟩ _ _ (by decide) ⟨[], [], by decide +kernel, ?_, ?_⟩
      ⟨['\n', ' '], [], by decide +kernel, ?_, ?_⟩
    · exact List.forall_mem_nil _
    · exact List.forall_mem_nil _
    · exact List.forall_mem_cons.2 ⟨by decide, List.forall_mem_singleton.2 (by decide)⟩
    · exact List.forall_mem_nil _

end ElementContent
