import ElementContent.Text.Blank
import Mathlib.Data.List.DropRight

/-!
# What trimming and splitting leave

Trimming takes blanks from the ends of a text and nothing else, and the words of a text are the
pieces that stand between blanks, or between a blank and an end. Both are said here without the
functions that compute them. As blanks at the ends bound no other words, a text has the words of the
trimmed text.

- `IsPadded`: a text is another with blanks at its ends; `trim_eq_iff` says that trimming undoes it.
- `HasWord`: a word stands in a text; `mem_words_iff` says that splitting finds just the words.
- `words_trim`: trimming changes no word.
- `trimText_eq_iff`, `mem_wordsOf_iff`, `wordsOf_trimText`: the same for texts as strings.
-/

namespace ElementContent

/-- The text is `ds` with blanks at its ends. -/
def IsPadded (cs ds : List Char) : Prop :=
  ∃ l r, cs = l ++ ds ++ r ∧ (∀ c ∈ l, isBlank c = true) ∧ ∀ c ∈ r, isBlank c = true

/-- The word stands in the text: it holds no blank, and what stands before it and after it is a
blank or nothing. -/
def HasWord (cs w : List Char) : Prop :=
  w ≠ [] ∧ (∀ c ∈ w, isBlank c = false) ∧ ∃ l r, cs = l ++ w ++ r ∧
    (∀ c ∈ l.getLast?, isBlank c = true) ∧ ∀ c ∈ r.head?, isBlank c = true

variable {c : Char} {cs ds l r w : List Char}

/-! ## Trimming -/

theorem trim_eq_rdropWhile (cs : List Char) :
    trim cs = (cs.dropWhile isBlank).rdropWhile isBlank := rfl

theorem isPadded_trim (cs : List Char) : IsPadded cs (trim cs) := by
  refine ⟨cs.takeWhile isBlank, (cs.dropWhile isBlank).rtakeWhile isBlank, ?_,
    fun c hc => List.mem_takeWhile_imp hc, fun c hc => List.mem_rtakeWhile_imp hc⟩
  rw [trim_eq_rdropWhile, List.append_assoc, List.rdropWhile_append_rtakeWhile,
    List.takeWhile_append_dropWhile]

/-- A text that begins and ends with no blank is what trimming leaves of it, whatever blanks are put
at its ends. -/
theorem trim_eq_iff (hhead : ∀ c ∈ ds.head?, isBlank c = false)
    (hlast : ∀ c ∈ ds.getLast?, isBlank c = false) : trim cs = ds ↔ IsPadded cs ds := by
  constructor
  · rintro rfl
    exact isPadded_trim cs
  · rintro ⟨l, r, rfl, hl, hr⟩
    have hr' : ∀ c ∈ r.reverse, isBlank c = true := fun c hc => hr c (List.mem_reverse.1 hc)
    rw [trim, List.append_assoc, List.dropWhile_append_of_pos hl]
    cases ds with
    | nil =>
      have hnil : r.dropWhile isBlank = [] := List.dropWhile_eq_nil_iff.2 hr
      rw [List.nil_append, hnil]
      rfl
    | cons d ds =>
      have hd : isBlank d = false := hhead d rfl
      have hends : ((d :: ds).reverse).dropWhile isBlank = (d :: ds).reverse := by
        cases hrev : (d :: ds).reverse with
        | nil => rfl
        | cons e es =>
          have he : isBlank e = false := hlast e (by rw [List.getLast?_eq_head?_reverse, hrev]; rfl)
          rw [List.dropWhile_cons_of_neg (by simp [he])]
      rw [List.cons_append, List.dropWhile_cons_of_neg (by simp [hd]), ← List.cons_append,
        List.reverse_append, List.dropWhile_append_of_pos hr', hends, List.reverse_reverse]

/-! ## Blanks bound words -/

/-- A piece without blanks has no beginning that ends with one. -/
theorem eq_nil_of_ends_blank (hplain : ∀ c ∈ l ++ r, isBlank c = false)
    (hl : ∀ c ∈ l.getLast?, isBlank c = true) : l = [] := by
  by_contra hne
  have hlast := List.getLast?_eq_some_getLast hne
  have hmem : l.getLast hne ∈ l ++ r := List.mem_append_left r (List.getLast_mem hne)
  have hblank := hl _ hlast
  rw [hplain _ hmem] at hblank
  cases hblank

/-- A piece without blanks has no end that begins with one. -/
theorem eq_nil_of_begins_blank (hplain : ∀ c ∈ l ++ r, isBlank c = false)
    (hr : ∀ c ∈ r.head?, isBlank c = true) : r = [] := by
  cases r with
  | nil => rfl
  | cons c r =>
    have hblank := hr c rfl
    rw [hplain c (List.mem_append_right l List.mem_cons_self)] at hblank
    cases hblank

/-- A word at the beginning is one word, and the others stand in what comes after it. -/
theorem hasWord_append_iff {v : List Char} (hw : w ≠ []) (hplain : ∀ c ∈ w, isBlank c = false)
    (hr : ∀ c ∈ r.head?, isBlank c = true) : HasWord (w ++ r) v ↔ v = w ∨ HasWord r v := by
  constructor
  · rintro ⟨hv, hvplain, l, r', heq, hl, hr'⟩
    rw [List.append_assoc] at heq
    rcases List.append_eq_append_iff.1 heq with ⟨a, rfl, hrest⟩ | ⟨a, rfl, hrest⟩
    · -- the word begins behind the first one
      refine .inr ⟨hv, hvplain, a, r', by rw [hrest, List.append_assoc], fun c hc => ?_, hr'⟩
      exact hl c (List.mem_getLast?_append_of_mem_getLast? hc)
    · -- the word begins within the first one, hence with it, and they end together
      obtain rfl := eq_nil_of_ends_blank hplain hl
      rw [List.nil_append] at hplain ⊢
      refine .inl ?_
      rcases List.append_eq_append_iff.1 hrest with ⟨b, rfl, rfl⟩ | ⟨b, rfl, rfl⟩
      · have hb : b = [] := eq_nil_of_begins_blank hplain fun c hc =>
          hr' c (List.mem_head?_append_of_mem_head? hc)
        rw [hb, List.append_nil]
      · have hb : b = [] := eq_nil_of_begins_blank hvplain fun c hc =>
          hr c (List.mem_head?_append_of_mem_head? hc)
        rw [hb, List.append_nil]
  · rintro (rfl | ⟨hv, hvplain, l, r', rfl, hl, hr'⟩)
    · exact ⟨hw, hplain, [], r, rfl, by simp, hr⟩
    · refine ⟨hv, hvplain, w ++ l, r', by simp only [List.append_assoc], fun c hc => ?_, hr'⟩
      cases l with
      | nil =>
        -- then the other word would follow the first one without a blank
        cases v with
        | nil => exact absurd rfl hv
        | cons d v =>
          have hblank := hr d rfl
          rw [hvplain d List.mem_cons_self] at hblank
          cases hblank
      | cons d l =>
        rw [List.getLast?_append, List.getLast?_eq_some_getLast (List.cons_ne_nil d l)] at hc
        exact hl c (by rw [List.getLast?_eq_some_getLast (List.cons_ne_nil d l)]; exact hc)

theorem hasWord_cons_of_isBlank {v : List Char} (h : isBlank c = true) :
    HasWord (c :: cs) v ↔ HasWord cs v := by
  constructor
  · rintro ⟨hv, hvplain, l, r, heq, hl, hr⟩
    cases l with
    | nil =>
      cases v with
      | nil => exact absurd rfl hv
      | cons d v =>
        obtain rfl : c = d := (List.cons.inj heq).1
        rw [hvplain c List.mem_cons_self] at h
        cases h
    | cons d l =>
      exact ⟨hv, hvplain, l, r, (List.cons.inj heq).2,
        fun e he => hl e (List.mem_getLast?_cons he), hr⟩
  · rintro ⟨hv, hvplain, l, r, rfl, hl, hr⟩
    refine ⟨hv, hvplain, c :: l, r, rfl, fun e he => ?_, hr⟩
    cases l with
    | nil =>
      obtain rfl : c = e := Option.some.inj he
      exact h
    | cons d l => exact hl e he

/-! ## Splitting -/

theorem words_nil : words [] = [] := by
  rfl

theorem words_singleton (c : Char) : words [c] = if isBlank c then [] else [[c]] := by
  rfl

theorem words_cons_cons (c d : Char) (cs : List Char) : words (c :: d :: cs) =
    if isBlank c then words (d :: cs)
    else if isBlank d then [c] :: words (d :: cs)
    else match words (d :: cs) with
      | [] => [[c]]
      | w :: ws => (c :: w) :: ws := by
  rfl

theorem words_cons_of_isBlank (h : isBlank c = true) : words (c :: cs) = words cs := by
  cases cs with
  | nil => rw [words_singleton, if_pos h, words_nil]
  | cons d cs => rw [words_cons_cons, if_pos h]

/-- What begins with no blank begins with a word, which goes on up to the first blank. -/
theorem words_cons_of_not_isBlank (h : isBlank c = false) : words (c :: cs) =
    (c :: cs.takeWhile (!isBlank ·)) :: words (cs.dropWhile (!isBlank ·)) := by
  induction cs generalizing c with
  | nil => simp [words_nil, words_singleton, h]
  | cons d ds ih =>
    rw [words_cons_cons, if_neg (by simp [h])]
    by_cases hd : isBlank d = true
    · simp [hd]
    · have hd' : isBlank d = false := Bool.eq_false_iff.2 hd
      simp [hd', ih hd']

/-- The words that splitting finds are those that stand in the text. -/
theorem mem_words_iff {cs v : List Char} : v ∈ words cs ↔ HasWord cs v := by
  match cs with
  | [] =>
    refine iff_of_false List.not_mem_nil ?_
    rintro ⟨hv, -, l, r, heq, -⟩
    simp [hv] at heq
  | c :: cs =>
    by_cases hc : isBlank c = true
    · rw [words_cons_of_isBlank hc, hasWord_cons_of_isBlank hc]
      exact mem_words_iff
    · have hc' : isBlank c = false := Bool.eq_false_iff.2 hc
      have hsplit : c :: cs =
          (c :: cs.takeWhile (!isBlank ·)) ++ cs.dropWhile (!isBlank ·) := by
        rw [List.cons_append, List.takeWhile_append_dropWhile]
      have hplain : ∀ d ∈ c :: cs.takeWhile (!isBlank ·), isBlank d = false := by
        intro d hd
        rcases List.mem_cons.1 hd with rfl | hd
        · exact hc'
        · simpa using List.mem_takeWhile_imp hd
      have hrest : ∀ d ∈ (cs.dropWhile (!isBlank ·)).head?, isBlank d = true := by
        intro d hd
        have := List.head?_dropWhile_not (!isBlank ·) cs
        rw [Option.mem_def.1 hd] at this
        simpa using this
      rw [words_cons_of_not_isBlank hc', hsplit,
        hasWord_append_iff (List.cons_ne_nil _ _) hplain hrest, List.mem_cons]
      exact or_congr_right mem_words_iff
termination_by cs.length
decreasing_by
  · simp
  · exact Nat.lt_succ_of_le (List.length_dropWhile_le _ cs)

/-! ## Words of trimmed texts -/

theorem words_blanks_append (h : ∀ c ∈ l, isBlank c = true) : words (l ++ cs) = words cs := by
  induction l with
  | nil => rfl
  | cons c l ih =>
    rw [List.cons_append, words_cons_of_isBlank (h c List.mem_cons_self)]
    exact ih fun d hd => h d (List.mem_cons_of_mem c hd)

theorem words_concat_blank (h : isBlank c = true) : words (cs ++ [c]) = words cs := by
  induction cs with
  | nil => exact words_cons_of_isBlank h
  | cons d ds ih =>
    by_cases hd : isBlank d = true
    · rw [List.cons_append, words_cons_of_isBlank hd, words_cons_of_isBlank hd, ih]
    · cases ds with
      | nil => simp [words_cons_cons, words_singleton, hd, h]
      | cons e es =>
        have ih' : words (e :: (es ++ [c])) = words (e :: es) := ih
        show words (d :: e :: (es ++ [c])) = words (d :: e :: es)
        rw [words_cons_cons, ih', words_cons_cons]

theorem words_append_blanks (h : ∀ c ∈ r, isBlank c = true) : words (cs ++ r) = words cs := by
  induction r using List.reverseRecOn with
  | nil => rw [List.append_nil]
  | append_singleton r c ih =>
    rw [← List.append_assoc, words_concat_blank (h c (by simp))]
    exact ih fun d hd => h d (List.mem_append_left [c] hd)

/-- Trimming changes no word. -/
theorem words_trim (cs : List Char) : words (trim cs) = words cs := by
  obtain ⟨l, r, hcs, hl, hr⟩ := isPadded_trim cs
  calc words (trim cs) = words (l ++ (trim cs ++ r)) := by
        rw [words_blanks_append hl, words_append_blanks hr]
    _ = words cs := by rw [← List.append_assoc, ← hcs]

/-! ## Texts -/

theorem trimText_eq_iff {s t : String} (hhead : ∀ c ∈ t.toList.head?, isBlank c = false)
    (hlast : ∀ c ∈ t.toList.getLast?, isBlank c = false) :
    trimText s = t ↔ IsPadded s.toList t.toList := by
  rw [trimText, ← String.toList_inj, String.toList_ofList, trim_eq_iff hhead hlast]

theorem mem_wordsOf_iff {s w : String} : w ∈ wordsOf s ↔ HasWord s.toList w.toList := by
  rw [wordsOf, ← mem_words_iff, List.mem_map]
  constructor
  · rintro ⟨cs, hcs, rfl⟩
    rwa [String.toList_ofList]
  · intro h
    exact ⟨w.toList, h, String.ofList_toList⟩

theorem wordsOf_trimText (s : String) : wordsOf (trimText s) = wordsOf s := by
  rw [wordsOf, trimText, String.toList_ofList, words_trim, wordsOf]

end ElementContent
