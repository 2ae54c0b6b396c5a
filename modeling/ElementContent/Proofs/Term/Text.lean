import ElementContent.Proofs.Text.ReadBack
import ElementContent.Term

/-!
# The texts of terms can be read back

Without a name table a term is written with its ids. Its text then tells which term it is, be it
followed by a sign, a separator or a closing parenthesis: the four sorts of terms begin differently,
numbers go on until there is no digit, and lists of numbers are closed by a bracket. Reserved marks
are left out, since one of them is written as text is.

- `Symbol.readsBack`: the symbol of an element can be read back.
- `Wildcard.eq_of_render_append_eq`: a wildcard can be read back up to a closing parenthesis.
- `Term.readsBack`: so can every term that names no reserved mark.
-/

namespace ElementContent

/-- The character may come after a number that is not followed by a colon. -/
def EndsNumbers (c : Char) : Prop :=
  c.isDigit = false ∧ c ≠ ':'

variable {r r' : List Char}

/-! ## Symbols -/

namespace Symbol

/-- The text of the symbol of an element. -/
def code (s : Symbol) : List Char :=
  '#' :: (if s.space = .absent then Nat.toDigits 10 s.label.toNat
    else Nat.toDigits 10 s.space.toNat ++ ':' :: Nat.toDigits 10 s.label.toNat)

theorem toList_raw {s : Symbol} (h : s.isReserved = false) : s.raw.toList = s.code := by
  have hne {mark : Symbol} (hmark : mark.isReserved = true) : s ≠ mark := by
    rintro rfl
    rw [hmark] at h
    cases h
  unfold raw code
  rw [if_neg (hne rfl), if_neg (hne rfl), if_neg (hne rfl)]
  split <;> simp [toString]

theorem readsBack (s : Symbol) : ReadsBack code (fun _ => True) EndsNumbers s := by
  intro s' r r' _ hr hr' h
  have hdigits {r : List Char} (hr : GoesOn EndsNumbers r) :
      GoesOn (fun c => c.isDigit = false) r := hr.mono fun c hc => hc.1
  have hcolon (r : List Char) : GoesOn (fun c => c.isDigit = false) (':' :: r) := goesOn_cons rfl
  have hnone {r r' : List Char} (hr : GoesOn EndsNumbers r) : r ≠ ':' :: r' :=
    fun heq => (hr ':' r' heq).2 rfl
  obtain ⟨space, label⟩ := s
  obtain ⟨space', label'⟩ := s'
  simp only [code, List.cons_append, List.cons.injEq, true_and] at h
  by_cases hspace : space = .absent
  · by_cases hspace' : space' = .absent
    · rw [if_pos hspace, if_pos hspace'] at h
      obtain ⟨hlabel, hrest⟩ := readsBack_toDigits _ _ _ _ trivial (hdigits hr) (hdigits hr') h
      exact ⟨by rw [hspace, hspace', UInt32.toNat_inj.1 hlabel], hrest⟩
    · -- one number against two: the colon would have to follow the first
      rw [if_pos hspace, if_neg hspace', List.append_assoc] at h
      obtain ⟨-, hrest⟩ := readsBack_toDigits _ _ _ _ trivial (hdigits hr) (hcolon _) h
      exact absurd hrest (hnone hr)
  · by_cases hspace' : space' = .absent
    · rw [if_neg hspace, if_pos hspace', List.append_assoc] at h
      obtain ⟨-, hrest⟩ := readsBack_toDigits _ _ _ _ trivial (hcolon _) (hdigits hr') h
      exact absurd hrest.symm (hnone hr')
    · rw [if_neg hspace, if_neg hspace', List.append_assoc, List.append_assoc] at h
      obtain ⟨hspaces, hrest⟩ := readsBack_toDigits _ _ _ _ trivial (hcolon _) (hcolon _) h
      obtain ⟨hlabel, hrest⟩ := readsBack_toDigits _ _ _ _ trivial (hdigits hr) (hdigits hr')
        (List.cons.inj hrest).2
      exact ⟨by rw [UInt32.toNat_inj.1 hspaces, UInt32.toNat_inj.1 hlabel], hrest⟩

end Symbol

/-! ## Wildcards -/

namespace NamespaceSet

/-- The text of the ids of a set, without the brackets. -/
def code (ids : NamespaceSet) : List Char :=
  [' '].intercalate (ids.ids.map fun id => Nat.toDigits 10 id.toNat)

theorem ext_ids {ids ids' : NamespaceSet} (h : ids.ids = ids'.ids) : ids = ids' := by
  cases ids
  cases ids'
  cases h
  rfl

theorem readsBack_id (id : NamespaceId) : ReadsBack (fun id : NamespaceId => Nat.toDigits 10 id.toNat)
    (fun _ => True) (fun c => c.isDigit = false) id := by
  intro id' r r' _ hr hr' h
  obtain ⟨hid, hrest⟩ := readsBack_toDigits _ _ _ _ trivial hr hr' h
  exact ⟨UInt32.toNat_inj.1 hid, hrest⟩

/-- A row of ids does not begin with the closing bracket. -/
theorem not_close_intercalate (id : NamespaceId) (ids : List NamespaceId) :
    [' '].intercalate ((id :: ids).map fun id => Nat.toDigits 10 id.toNat) ++ r ≠ ']' :: r' := by
  rw [List.map_cons, intercalate_cons, List.append_assoc]
  exact toDigits_append_ne id.toNat rfl

/-- A set of ids can be read back up to the closing bracket. -/
theorem eq_of_code_append_eq {ids ids' : NamespaceSet}
    (h : ids.code ++ ']' :: r = ids'.code ++ ']' :: r') : ids = ids' ∧ r = r' := by
  obtain ⟨ids, hids⟩ := ids
  obtain ⟨ids', hids'⟩ := ids'
  have hrows : ids = ids' ∧ r = r' := by
    cases ids with
    | nil =>
      cases ids' with
      | nil => exact ⟨rfl, (List.cons.inj h).2⟩
      | cons id' ids' => exact absurd h.symm (not_close_intercalate id' ids')
    | cons id ids =>
      cases ids' with
      | nil => exact absurd h (not_close_intercalate id ids)
      | cons id' ids' =>
        refine eq_of_intercalate_append_eq (show ' ' ≠ ']' by decide) ?_ ?_
          (fun id _ => readsBack_id id) (fun _ _ => trivial) (readsBack_id id) trivial h
        · rfl
        · rfl
  exact ⟨ext_ids hrows.1, hrows.2⟩

end NamespaceSet

namespace Wildcard

/-- The text of a wildcard. -/
def code : Wildcard → List Char
  | any => ['#', '#', 'a', 'n', 'y']
  | other target => ['#', '#', 'o', 't', 'h', 'e', 'r', '('] ++ Nat.toDigits 10 target.toNat ++ [')']
  | oneOf ids => '[' :: (ids.code ++ [']'])
  | noneOf ids => ['n', 'o', 't', '['] ++ ids.code ++ [']']

theorem toList_render (w : Wildcard) : w.render.toList = w.code := by
  have hids (ids : NamespaceSet) : (renderIds ids).toList = '[' :: (ids.code ++ [']']) := by
    simp [renderIds, NamespaceSet.code, String.toList_intercalate, Function.comp_def]
  cases w with
  | any => rfl
  | other target => simp [render, code, toString]
  | oneOf ids => exact hids ids
  | noneOf ids => simp [render, code, hids]

/-- A wildcard can be read back up to the closing parenthesis. -/
theorem eq_of_code_append_eq {w w' : Wildcard} (h : w.code ++ ')' :: r = w'.code ++ ')' :: r') :
    w = w' ∧ r = r' := by
  cases w with
  | any =>
    cases w' with
    | any => exact ⟨rfl, by simpa [code] using h⟩
    | other | oneOf | noneOf => simp [code] at h
  | other target =>
    cases w' with
    | other target' =>
      simp only [code, List.cons_append, List.nil_append, List.append_assoc, List.cons.injEq,
        true_and] at h
      obtain ⟨htarget, hrest⟩ := readsBack_toDigits _ _ _ _ trivial (goesOn_cons rfl)
        (goesOn_cons rfl) h
      exact ⟨by rw [UInt32.toNat_inj.1 htarget], by simpa using hrest⟩
    | any | oneOf | noneOf => simp [code] at h
  | oneOf ids =>
    cases w' with
    | oneOf ids' =>
      simp only [code, List.cons_append, List.nil_append, List.append_assoc, List.cons.injEq,
        true_and] at h
      obtain ⟨hids, hrest⟩ := NamespaceSet.eq_of_code_append_eq h
      exact ⟨by rw [hids], (List.cons.inj hrest).2⟩
    | any | other | noneOf => simp [code] at h
  | noneOf ids =>
    cases w' with
    | noneOf ids' =>
      simp only [code, List.cons_append, List.nil_append, List.append_assoc, List.cons.injEq,
        true_and] at h
      obtain ⟨hids, hrest⟩ := NamespaceSet.eq_of_code_append_eq h
      exact ⟨by rw [hids], (List.cons.inj hrest).2⟩
    | any | other | oneOf => simp [code] at h

end Wildcard

/-! ## Terms -/

namespace Term

/-- The term names no reserved mark. -/
def IsPlain (t : Term) : Prop :=
  ∀ s, t = element s → s.isReserved = false

/-- The text of a term. -/
def code : Term → List Char
  | element s => s.code
  | any w => ['a', 'n', 'y', '('] ++ w.code ++ [')']
  | text => ['#', 'P', 'C', 'D', 'A', 'T', 'A']
  | empty => ['E', 'M', 'P', 'T', 'Y']

theorem toList_render {t : Term} (h : t.IsPlain) : (t.render none).toList = t.code := by
  cases t with
  | element s => exact Symbol.toList_raw (h s rfl)
  | any w => simp [render, code, Wildcard.toList_render]
  | text => rfl
  | empty => rfl

/-- A number comes after the sign of an element, and so none of the letters. -/
theorem symbol_code_ne_text (s : Symbol) : s.code ++ r ≠ text.code ++ r' := by
  simp only [Symbol.code, code, List.cons_append, ne_eq, List.cons.injEq, true_and]
  split
  · exact toDigits_append_ne s.label.toNat rfl
  · rw [List.append_assoc]
    exact toDigits_append_ne s.space.toNat rfl

theorem readsBack (t : Term) : ReadsBack code (fun _ => True) EndsNumbers t := by
  intro t' r r' _ hr hr' h
  cases t with
  | element s =>
    cases t' with
    | element s' =>
      obtain ⟨hs, hrest⟩ := s.readsBack s' r r' trivial hr hr' h
      exact ⟨by rw [hs], hrest⟩
    | text => exact absurd h (symbol_code_ne_text s)
    | any | empty => simp [code, Symbol.code] at h
  | any w =>
    cases t' with
    | any w' =>
      simp only [code, List.cons_append, List.nil_append, List.append_assoc, List.cons.injEq,
        true_and] at h
      obtain ⟨hw, hrest⟩ := Wildcard.eq_of_code_append_eq h
      exact ⟨by rw [hw], hrest⟩
    | element | text | empty => simp [code, Symbol.code] at h
  | text =>
    cases t' with
    | text => exact ⟨rfl, List.append_cancel_left h⟩
    | element s => exact absurd h.symm (symbol_code_ne_text s)
    | any | empty => simp [code] at h
  | empty =>
    cases t' with
    | empty => exact ⟨rfl, List.append_cancel_left h⟩
    | element | any | text => simp [code, Symbol.code] at h

end Term

end ElementContent
