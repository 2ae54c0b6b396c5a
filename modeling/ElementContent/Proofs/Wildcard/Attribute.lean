import ElementContent.Proofs.Name.Request
import ElementContent.Proofs.Text.Blank

/-!
# What a wildcard attribute says of URIs

An attribute speaks of URIs and a wildcard of their ids. A table gives different URIs different ids
as long as it has enough of them, and a URI keeps its id, so a wildcard goes on admitting the URIs
that the attribute is about: those that the table knew before, those that were read from the
attribute, and those that come later.

- `Attribute.Admits`: the URIs that a `namespace` attribute admits, by its text.
- `NameTable.readSpaces_cons`: what reading does with one word of a list.
- `NameTable.exists_readSpaces`: a list without unknown keywords is read, as the set of the ids of
  the URIs that its words stand for; `NameTable.readSpaces_of_find?` is the other case.
- `Wildcard.LetsIn`: the URIs whose ids a wildcard admits from now on.
- `attributes_mean_uris`: attributes that are refused, and what the others mean.
-/

namespace ElementContent

namespace Attribute

/-! ## The text of an attribute -/

/-- The word begins like a keyword, but is none of those that may stand in a list. -/
def IsUnknown (word : String) : Prop :=
  ['#', '#'] <+: word.toList ∧ word ≠ "##local" ∧ word ≠ "##targetNamespace"

/-- The text is no keyword, whatever blanks are around it, and so is read as a list of words. -/
def IsList (value : String) : Prop :=
  ¬ IsPadded value.toList "##any".toList ∧ ¬ IsPadded value.toList "##other".toList

/-- The URI stands in the list, or one of the two keywords that stand for it does. -/
def Lists (value target uri : String) : Prop :=
  (HasWord value.toList uri.toList ∧ ¬ ['#', '#'] <+: uri.toList) ∨
    (uri = "" ∧ HasWord value.toList "##local".toList) ∨
    (uri = target ∧ HasWord value.toList "##targetNamespace".toList)

/-- A `namespace` attribute with this text admits the URI, where the empty URI is no namespace. -/
def Admits (value target uri : String) : Prop :=
  IsPadded value.toList "##any".toList ∨
    (IsPadded value.toList "##other".toList ∧ uri ≠ "" ∧ uri ≠ target) ∨
    (IsList value ∧ Lists value target uri)

variable {value word uri : String} {target : Option String}

theorem trimText_eq_any_iff :
    trimText value = "##any" ↔ IsPadded value.toList "##any".toList := by
  apply trimText_eq_iff
  · rintro _ ⟨⟩
    decide
  · rintro _ ⟨⟩
    decide

theorem trimText_eq_other_iff :
    trimText value = "##other" ↔ IsPadded value.toList "##other".toList := by
  apply trimText_eq_iff
  · rintro _ ⟨⟩
    decide
  · rintro _ ⟨⟩
    decide

theorem admits_of_isPadded_any (h : IsPadded value.toList "##any".toList) (space : String) :
    Admits value space uri :=
  .inl h

theorem admits_iff_of_isPadded_other (h : IsPadded value.toList "##other".toList) (space : String) :
    Admits value space uri ↔ uri ≠ "" ∧ uri ≠ space := by
  have hany : ¬ IsPadded value.toList "##any".toList := by
    rw [← trimText_eq_any_iff, trimText_eq_other_iff.2 h]
    decide
  have hlist : ¬ IsList value := fun hlist => hlist.2 h
  simp only [Admits, hany, h, hlist, false_or, true_and, false_and, or_false]

theorem admits_iff_of_isList (h : IsList value) (space : String) :
    Admits value space uri ↔ Lists value space uri := by
  simp only [Admits, h.1, h.2, h, false_or, true_and, false_and]

/-! ## The words of a list -/

theorem isKeyword_iff : isKeyword word = true ↔ ['#', '#'] <+: word.toList := by
  unfold isKeyword
  split
  · next rest h =>
    rw [h]
    exact iff_of_true rfl ⟨rest, rfl⟩
  · next hno =>
    refine iff_of_false Bool.false_ne_true ?_
    rintro ⟨rest, h⟩
    exact hno rest h.symm

/-- Whether the word makes a list unreadable. -/
def refuses (word : String) : Bool :=
  isKeyword word && word != "##local" && word != "##targetNamespace"

theorem refuses_iff : refuses word = true ↔ IsUnknown word := by
  simp only [refuses, IsUnknown, Bool.and_eq_true, isKeyword_iff, bne_iff_ne, and_assoc]

/-- The URI that a word of a list stands for. -/
def uriOf (target : Option String) (word : String) : String :=
  if word = "##local" then ""
  else if word = "##targetNamespace" then target.getD ""
  else word

/-- In a list without unknown keywords, the words stand for the listed URIs. -/
theorem exists_uriOf_iff (target : Option String)
    (hknown : ∀ word ∈ wordsOf value, ¬ refuses word = true) :
    (∃ word ∈ wordsOf value, uriOf target word = uri) ↔ Lists value (target.getD "") uri := by
  have hlocal : ['#', '#'] <+: "##local".toList := by decide
  have htarget : ['#', '#'] <+: "##targetNamespace".toList := by decide
  simp only [Lists, ← mem_wordsOf_iff]
  constructor
  · rintro ⟨word, hword, rfl⟩
    unfold uriOf
    by_cases h : word = "##local"
    · rw [if_pos h]
      exact .inr (.inl ⟨rfl, h ▸ hword⟩)
    · by_cases h' : word = "##targetNamespace"
      · rw [if_neg h, if_pos h']
        exact .inr (.inr ⟨rfl, h' ▸ hword⟩)
      · rw [if_neg h, if_neg h']
        exact .inl ⟨hword, fun hhash => hknown word hword (refuses_iff.2 ⟨hhash, h, h'⟩)⟩
  · rintro (⟨hword, hliteral⟩ | ⟨rfl, hword⟩ | ⟨rfl, hword⟩)
    · refine ⟨uri, hword, ?_⟩
      have h : uri ≠ "##local" := by
        rintro rfl
        exact hliteral hlocal
      have h' : uri ≠ "##targetNamespace" := by
        rintro rfl
        exact hliteral htarget
      rw [uriOf, if_neg h, if_neg h']
    · exact ⟨_, hword, rfl⟩
    · exact ⟨_, hword, rfl⟩

end Attribute

namespace NameTable

open Attribute

/-! ## Reading lists -/

/-- The table knows the absent namespace by its id. -/
def KnowsAbsent (t : NameTable) : Prop :=
  t.spaces.find? "" = some 0

variable {t t' : NameTable} {list : ListAttribute} {target : Option String} {word : String}
  {words : List String} {ids : NamespaceSet}

theorem KnowsAbsent.of_grows (h : t.KnowsAbsent) (hgrows : t.Grows t') : t'.KnowsAbsent :=
  Pool.find?_mono hgrows.spaces h

theorem knowsAbsent_serveAll (rs : List Request) : (empty.serveAll rs).2.KnowsAbsent :=
  KnowsAbsent.of_grows (t := empty) rfl (empty.grows_serveAll rs)

/-- A word is refused as an unknown keyword, or the id of the URI that it stands for is added. -/
theorem readSpaces_cons (h : t.KnowsAbsent) :
    readSpaces list target (word :: words) ids t =
      if refuses word then (.error (.content (.unknownKeyword word list)), t)
      else readSpaces list target words (ids.insert (t.internSpace (uriOf target word)).1)
        (t.internSpace (uriOf target word)).2 := by
  rw [readSpaces]
  by_cases hlocal : word = "##local"
  · have hknown : refuses word = false := by simp [refuses, hlocal]
    rw [if_pos hlocal, hknown, uriOf, if_pos hlocal, internSpace_eq_self h]
    rfl
  · by_cases htarget : word = "##targetNamespace"
    · have hknown : refuses word = false := by simp [refuses, htarget]
      rw [if_neg hlocal, if_pos htarget, hknown, uriOf, if_neg hlocal, if_pos htarget]
      rfl
    · have hrefuses : refuses word = isKeyword word := by
        rw [refuses, bne_iff_ne.2 hlocal, bne_iff_ne.2 htarget, Bool.and_true, Bool.and_true]
      rw [if_neg hlocal, if_neg htarget, hrefuses, uriOf, if_neg hlocal, if_neg htarget]

/-- A list is refused for the first unknown keyword in it. -/
theorem readSpaces_of_find? (h : t.KnowsAbsent) (hword : words.find? refuses = some word) :
    (readSpaces list target words ids t).1 = .error (.content (.unknownKeyword word list)) := by
  induction words generalizing ids t with
  | nil => cases hword
  | cons first rest ih =>
    rw [readSpaces_cons h]
    by_cases hfirst : refuses first = true
    · rw [List.find?_cons_of_pos hfirst] at hword
      rw [if_pos hfirst, Option.some.inj hword]
    · rw [List.find?_cons_of_neg hfirst] at hword
      rw [if_neg hfirst]
      exact ih (h.of_grows (t.grows_internSpace _)) hword

/-- A list without unknown keywords is read, for either attribute, as the set of the ids of the URIs
that its words stand for. -/
theorem exists_readSpaces (target : Option String) (ids : NamespaceSet) (h : t.KnowsAbsent)
    (hknown : ∀ word ∈ words, ¬ refuses word = true) : ∃ ids' out,
      (∀ list, readSpaces list target words ids t = (.ok ids', out)) ∧ t.Grows out ∧
      (∀ word ∈ words, ∃ i, out.spaces.find? (uriOf target word) = some i) ∧
      ∀ n, ids'.contains n = true ↔ ids.contains n = true ∨
        ∃ word ∈ words, ∃ i, out.spaces.find? (uriOf target word) = some i ∧ n = .ofNat i := by
  induction words generalizing ids t with
  | nil => exact ⟨ids, t, fun list => rfl, .refl t, by simp, by simp⟩
  | cons first rest ih =>
    have hgrows := t.grows_internSpace (uriOf target first)
    obtain ⟨ids', out, hread, hlater, hfound, hids'⟩ :=
      ih (ids.insert (t.internSpace (uriOf target first)).1) (h.of_grows hgrows)
        fun word hword => hknown word (List.mem_cons_of_mem first hword)
    obtain ⟨i, hi, hid⟩ := t.find?_internSpace (uriOf target first)
    have hi' := Pool.find?_mono hlater.spaces hi
    refine ⟨ids', out, fun list => ?_, hgrows.trans hlater, ?_, fun n => ?_⟩
    · rw [readSpaces_cons h, if_neg (hknown first List.mem_cons_self)]
      exact hread list
    · rw [List.forall_mem_cons]
      exact ⟨⟨i, hi'⟩, hfound⟩
    · have hfirst : (∃ j, out.spaces.find? (uriOf target first) = some j ∧ n = .ofNat j) ↔
          n = .ofNat i := by
        constructor
        · rintro ⟨j, hj, rfl⟩
          rw [Option.some.inj (hj.symm.trans hi')]
        · rintro rfl
          exact ⟨i, hi', rfl⟩
      rw [hids', NamespaceSet.contains_insert, hid, Bool.or_eq_true, beq_iff_eq,
        List.exists_mem_cons_iff, hfirst, or_assoc, or_left_comm]

end NameTable

namespace Wildcard

open Attribute

variable {t out : NameTable} {value : String} {target : Option String} {w : Wildcard}
  {uris : String → Prop}

/-! ## What a wildcard lets in -/

/-- Whatever a table is asked for, the wildcard admits the ids of these URIs and of no others, as
long as there is an id for each namespace. -/
def LetsIn (w : Wildcard) (t : NameTable) (uris : String → Prop) : Prop :=
  ∀ rs uri, ((t.serveAll rs).2.internSpace uri).2.NumbersSpaces →
    (w.allows ((t.serveAll rs).2.internSpace uri).1 = true ↔ uris uri)

theorem LetsIn.congr {uris' : String → Prop} (h : w.LetsIn t uris)
    (huris : ∀ uri, uris uri ↔ uris' uri) : w.LetsIn t uris' :=
  fun rs uri hids => (h rs uri hids).trans (huris uri)

theorem letsIn_of_later (h : ∀ later : NameTable, t.Grows later → later.NumbersSpaces →
    ∀ uri i, later.spaces.find? uri = some i → (w.allows (.ofNat i) = true ↔ uris uri)) :
    w.LetsIn t uris := by
  intro rs uri hids
  obtain ⟨i, hi, hid⟩ := (t.serveAll rs).2.find?_internSpace uri
  rw [hid]
  exact h _ ((t.grows_serveAll rs).trans ((t.serveAll rs).2.grows_internSpace uri)) hids uri i hi

/-- All but the absent namespace and one more. -/
theorem letsIn_other (h : t.KnowsAbsent) (space : String) :
    (other (t.internSpace space).1).LetsIn (t.internSpace space).2
      fun uri => uri ≠ "" ∧ uri ≠ space := by
  obtain ⟨j, hj, hid⟩ := t.find?_internSpace space
  rw [hid]
  refine letsIn_of_later fun later hlater hids uri i hi => ?_
  have habsent := (h.of_grows (t.grows_internSpace space)).of_grows hlater
  have hzero : (UInt32.ofNat i = NamespaceId.absent) ↔ uri = "" := hids.ofNat_eq_iff hi habsent
  have hspace := hids.ofNat_eq_iff hi (Pool.find?_mono hlater.spaces hj)
  simp only [allows, Bool.and_eq_true, bne_iff_ne, ne_eq, hzero, hspace]

/-- A list without unknown keywords, read for either attribute, is a set of ids. A wildcard that
admits just these, or just the others, lets in the listed URIs, or all others. -/
theorem exists_listed (target : Option String) (h : t.KnowsAbsent)
    (hknown : ∀ word ∈ wordsOf value, ¬ refuses word = true) : ∃ ids out,
      (∀ list, readSpaces list target (wordsOf value) .empty t = (.ok ids, out)) ∧
      (oneOf ids).LetsIn out (Lists value (target.getD "")) ∧
      (noneOf ids).LetsIn out fun uri => ¬ Lists value (target.getD "") uri := by
  obtain ⟨ids, out, hread, -, hfound, hids⟩ :=
    NameTable.exists_readSpaces target .empty h hknown
  -- the ids of the set are those of the listed URIs, in every later table
  have hcontains : ∀ later : NameTable, out.Grows later → later.NumbersSpaces → ∀ uri i,
      later.spaces.find? uri = some i →
      (ids.contains (.ofNat i) = true ↔ Lists value (target.getD "") uri) := by
    intro later hlater hnumbers uri i hi
    rw [hids, NamespaceSet.contains_empty, or_iff_right Bool.false_ne_true,
      ← exists_uriOf_iff target hknown]
    refine exists_congr fun word => and_congr_right fun hword => ?_
    obtain ⟨j, hj⟩ := hfound word hword
    have heq := hnumbers.ofNat_eq_iff (Pool.find?_mono hlater.spaces hj) hi
    rw [← heq]
    constructor
    · rintro ⟨k, hk, hik⟩
      rw [hik, Option.some.inj (hj.symm.trans hk)]
    · intro hji
      exact ⟨j, hj, hji.symm⟩
  refine ⟨ids, out, hread, letsIn_of_later hcontains, letsIn_of_later ?_⟩
  intro later hlater hnumbers uri i hi
  show (!ids.contains (.ofNat i)) = true ↔ _
  rw [Bool.not_eq_true', ← Bool.not_eq_true, hcontains later hlater hnumbers uri i hi]

/-! ## Reading attributes -/

theorem ofAdmitted_of_any (h : IsPadded value.toList "##any".toList) :
    ofAdmitted value target t = (.ok any, t) := by
  unfold ofAdmitted
  exact if_pos (trimText_eq_any_iff.2 h)

theorem ofAdmitted_of_other (h : IsPadded value.toList "##other".toList) :
    ofAdmitted value target t =
      (.ok (other (t.internSpace (target.getD "")).1), (t.internSpace (target.getD "")).2) := by
  have hother := trimText_eq_other_iff.2 h
  have hany : trimText value ≠ "##any" := by
    rw [hother]
    decide
  unfold ofAdmitted
  rw [if_neg hany, if_pos hother]

theorem ofAdmitted_of_isList (h : IsList value) : ofAdmitted value target t =
    ((readSpaces .admitted target (wordsOf value) .empty t).1.map .oneOf,
      (readSpaces .admitted target (wordsOf value) .empty t).2) := by
  have hany : trimText value ≠ "##any" := fun heq => h.1 (trimText_eq_any_iff.1 heq)
  have hother : trimText value ≠ "##other" := fun heq => h.2 (trimText_eq_other_iff.1 heq)
  unfold ofAdmitted
  rw [if_neg hany, if_neg hother, wordsOf_trimText]

/-- A list with an unknown keyword is refused for the first one, by either attribute. -/
theorem ofAdmitted_and_ofExcluded_of_find? {word : String} (target : Option String)
    (h : t.KnowsAbsent) (hlist : IsList value)
    (hword : (wordsOf value).find? refuses = some word) :
    (ofAdmitted value target t).1 = .error (.content (.unknownKeyword word .admitted)) ∧
      (ofExcluded value target t).1 = .error (.content (.unknownKeyword word .excluded)) := by
  constructor
  · rw [ofAdmitted_of_isList hlist]
    dsimp only
    rw [NameTable.readSpaces_of_find? h hword]
    rfl
  · show (readSpaces .excluded target (wordsOf value) .empty t).1.map noneOf = _
    rw [NameTable.readSpaces_of_find? h hword]
    rfl

/-- Any other list is read, and the two attributes let in what the other does not. -/
theorem exists_ofAdmitted_and_ofExcluded (target : Option String) (h : t.KnowsAbsent)
    (hlist : IsList value) (hword : (wordsOf value).find? refuses = none) :
    ∃ ids out, ofAdmitted value target t = (.ok (oneOf ids), out) ∧
      ofExcluded value target t = (.ok (noneOf ids), out) ∧
      (oneOf ids).LetsIn out (Admits value (target.getD "")) ∧
      (noneOf ids).LetsIn out fun uri => ¬ Admits value (target.getD "") uri := by
  obtain ⟨ids, out, hread, hone, hnone⟩ :=
    exists_listed target h (List.find?_eq_none.1 hword)
  refine ⟨ids, out, ?_, ?_, ?_, ?_⟩
  · rw [ofAdmitted_of_isList hlist, hread]
    rfl
  · show ((readSpaces .excluded target (wordsOf value) .empty t).1.map noneOf, _) = _
    rw [hread]
    rfl
  · exact hone.congr fun uri => (admits_iff_of_isList hlist _).symm
  · exact hnone.congr fun uri => not_congr (admits_iff_of_isList hlist _).symm

theorem exists_ofAdmitted_error_iff (h : t.KnowsAbsent) :
    (∃ e, (ofAdmitted value target t).1 = .error e) ↔
      IsList value ∧ ∃ word : String, HasWord value.toList word.toList ∧ IsUnknown word := by
  by_cases hlist : IsList value
  · rw [and_iff_right hlist]
    simp only [← mem_wordsOf_iff, ← refuses_iff]
    cases hword : (wordsOf value).find? refuses with
    | some word =>
      refine iff_of_true ⟨_, (ofAdmitted_and_ofExcluded_of_find? target h hlist hword).1⟩ ?_
      exact ⟨word, List.mem_of_find?_eq_some hword, List.find?_some hword⟩
    | none =>
      obtain ⟨ids, out, hread, -⟩ :=
        exists_ofAdmitted_and_ofExcluded target h hlist hword
      rw [hread]
      refine iff_of_false (by rintro ⟨e, ⟨⟩⟩) ?_
      rintro ⟨word, hmem, hrefuses⟩
      exact List.find?_eq_none.1 hword word hmem hrefuses
  · refine iff_of_false ?_ fun h => hlist h.1
    by_cases hany : IsPadded value.toList "##any".toList
    · rw [ofAdmitted_of_any hany]
      rintro ⟨e, ⟨⟩⟩
    · have hother : IsPadded value.toList "##other".toList := by
        by_contra hother
        exact hlist ⟨hany, hother⟩
      rw [ofAdmitted_of_other hother]
      rintro ⟨e, ⟨⟩⟩

/-- A wildcard that was read from a `namespace` attribute lets in what the text admits. -/
theorem letsIn_ofAdmitted (h : t.KnowsAbsent) (hw : (ofAdmitted value target t).1 = .ok w) :
    w.LetsIn (ofAdmitted value target t).2 (Admits value (target.getD "")) := by
  by_cases hany : IsPadded value.toList "##any".toList
  · rw [ofAdmitted_of_any hany] at hw ⊢
    obtain rfl := Except.ok.inj hw
    exact fun rs uri _ => iff_of_true rfl (admits_of_isPadded_any hany _)
  · by_cases hother : IsPadded value.toList "##other".toList
    · rw [ofAdmitted_of_other hother] at hw ⊢
      obtain rfl := Except.ok.inj hw
      exact (letsIn_other h _).congr fun uri => (admits_iff_of_isPadded_other hother _).symm
    · have hlist : IsList value := ⟨hany, hother⟩
      cases hword : (wordsOf value).find? refuses with
      | some word =>
        rw [(ofAdmitted_and_ofExcluded_of_find? target h hlist hword).1] at hw
        cases hw
      | none =>
        obtain ⟨ids, out, hread, -, hone, -⟩ :=
          exists_ofAdmitted_and_ofExcluded target h hlist hword
        rw [hread] at hw ⊢
        obtain rfl := Except.ok.inj hw
        exact hone

end Wildcard

open Attribute in
/-- A `namespace` attribute is refused just when it is a list with an unknown keyword. Any other
lets in the URIs that its text admits: those interned already and those interned later. A
`notNamespace` attribute with the text of a list is refused just when the `namespace` attribute is.
Otherwise it leaves the same table and lets in the other URIs. -/
theorem attributes_mean_uris (rs : List NameTable.Request) (value : String)
    (target : Option String) :
    let t := (NameTable.empty.serveAll rs).2
    let admitted := Wildcard.ofAdmitted value target t
    let excluded := Wildcard.ofExcluded value target t
    ((∃ e, admitted.1 = .error e) ↔
      IsList value ∧ ∃ word : String, HasWord value.toList word.toList ∧ IsUnknown word) ∧
    (∀ w, admitted.1 = .ok w → w.LetsIn admitted.2 (Admits value (target.getD ""))) ∧
    (IsList value →
      ((∃ v, excluded.1 = .ok v) ↔ ∃ w, admitted.1 = .ok w) ∧
      ∀ w v, admitted.1 = .ok w → excluded.1 = .ok v →
        excluded.2 = admitted.2 ∧ (∀ n, v.allows n = !w.allows n) ∧
        v.LetsIn excluded.2 fun uri => ¬ Admits value (target.getD "") uri) := by
  intro t admitted excluded
  have h : t.KnowsAbsent := NameTable.knowsAbsent_serveAll rs
  refine ⟨Wildcard.exists_ofAdmitted_error_iff h, fun w hw => Wildcard.letsIn_ofAdmitted h hw,
    fun hlist => ?_⟩
  cases hword : (wordsOf value).find? refuses with
  | some word =>
    -- both are refused
    obtain ⟨hadmitted, hexcluded⟩ :=
      Wildcard.ofAdmitted_and_ofExcluded_of_find? target h hlist hword
    simp only [admitted, excluded, hadmitted, hexcluded]
    exact ⟨iff_of_false (by rintro ⟨v, ⟨⟩⟩) (by rintro ⟨w, ⟨⟩⟩), fun w v hw => nomatch hw⟩
  | none =>
    -- both are read, as one set of ids
    obtain ⟨ids, out, hadmitted, hexcluded, -, hnone⟩ :=
      Wildcard.exists_ofAdmitted_and_ofExcluded target h hlist hword
    simp only [admitted, excluded, hadmitted, hexcluded]
    refine ⟨iff_of_true ⟨_, rfl⟩ ⟨_, rfl⟩, fun w v hw hv => ?_⟩
    obtain rfl := Except.ok.inj hw
    obtain rfl := Except.ok.inj hv
    exact ⟨trivial, fun n => rfl, hnone⟩

/-- A list with both keywords, read by a table that knows one URI that it does not name. -/
def sampleList : String :=
  " ##local  urn:x ##targetNamespace\n"

theorem attributes_mean_uris_sampleList :
    let t := (NameTable.empty.serveAll [.space "urn:a"]).2
    ∃ w later, Wildcard.ofAdmitted sampleList (some "urn:t") t = (.ok w, later) ∧
      w.allows (later.internSpace "").1 = true ∧ w.allows (later.internSpace "urn:t").1 = true ∧
      w.allows (later.internSpace "urn:a").1 = false ∧
      w.allows (later.internSpace "urn:b").1 = false := by
  intro t
  have hwords : wordsOf sampleList = ["##local", "urn:x", "##targetNamespace"] := by decide +kernel
  have hlist : Attribute.IsList sampleList := by
    rw [Attribute.IsList, ← Attribute.trimText_eq_any_iff, ← Attribute.trimText_eq_other_iff]
    decide +kernel
  have hknown : ∀ word ∈ wordsOf sampleList, ¬ Attribute.refuses word = true := by
    rw [hwords]
    decide
  have hadmits (uri : String) : Attribute.Admits sampleList "urn:t" uri ↔
      ∃ word ∈ wordsOf sampleList, Attribute.uriOf (some "urn:t") word = uri :=
    (Attribute.admits_iff_of_isList hlist "urn:t").trans
      (Attribute.exists_uriOf_iff (some "urn:t") hknown).symm
  simp only [hwords, List.exists_mem_cons_iff, List.not_mem_nil, false_and, exists_false,
    or_false] at hadmits
  have hids : ∀ uri ∈ ["", "urn:t", "urn:a", "urn:b"],
      let later := (Wildcard.ofAdmitted sampleList (some "urn:t") t).2
      (later.internSpace uri).2.spaces.entries.length ≤ NamespaceId.reserved.toNat := by
    decide +kernel
  obtain ⟨hrefused, hmeans, -⟩ := attributes_mean_uris [.space "urn:a"] sampleList (some "urn:t")
  cases hread : Wildcard.ofAdmitted sampleList (some "urn:t") t with
  | mk result later =>
    rw [hread] at hids
    cases result with
    | error e =>
      obtain ⟨-, word, hword, hunknown⟩ := hrefused.1 ⟨e, congrArg Prod.fst hread⟩
      exact absurd (Attribute.refuses_iff.2 hunknown) (hknown word (mem_wordsOf_iff.2 hword))
    | ok w =>
      have hw := hmeans w (congrArg Prod.fst hread)
      rw [hread] at hw
      refine ⟨w, later, rfl, ?_, ?_, ?_, ?_⟩
      · exact (hw [] "" (hids _ (by simp))).2 ((hadmits "").2 (.inl rfl))
      · exact (hw [] "urn:t" (hids _ (by simp))).2 ((hadmits "urn:t").2 (.inr (.inr rfl)))
      · rw [← Bool.not_eq_true]
        exact fun h => absurd ((hadmits "urn:a").1 ((hw [] "urn:a" (hids _ (by simp))).1 h))
          (by decide)
      · rw [← Bool.not_eq_true]
        exact fun h => absurd ((hadmits "urn:b").1 ((hw [] "urn:b" (hids _ (by simp))).1 h))
          (by decide)

end ElementContent
