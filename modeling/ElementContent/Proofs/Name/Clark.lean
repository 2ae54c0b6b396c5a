import ElementContent.Proofs.Name.Request

/-!
# Names in Clark form

A name in Clark form can be read in one way only: the first closing brace ends the namespace, since
no URI that was read holds one, and no local name holds a brace at all. What a table writes for a
symbol that was asked for in Clark form is again in Clark form and names the same, so it can be put
in for the symbol, however much has been interned since.

- `ExpandedName.IsClark`: the texts that stand for an expanded name.
- `ExpandedName.splitAtClose_eq_some_iff`: where a text is split.
- `ExpandedName.ofClark_eq_ok_iff`: the reader finds the name that a text stands for.
- `NameTable.internClark_render`: the text of a symbol is read as the symbol.
- `clark_names_read_back`: reading names, and reading them back.
-/

namespace ElementContent

namespace ExpandedName

/-- The text stands for the name. A name without a namespace may be written with empty braces or
without braces; a URI is not empty and does not hold a closing brace. -/
inductive IsClark : String → ExpandedName → Prop
  | bare {name : String} : isNCName name = true → IsClark name ⟨none, name⟩
  | emptyBraces {name : String} : isNCName name = true →
    IsClark ("\x7b\x7d" ++ name) ⟨none, name⟩
  | braced {uri name : String} : isNCName name = true → uri ≠ "" → '\x7d' ∉ uri.toList →
    IsClark ("\x7b" ++ uri ++ "\x7d" ++ name) ⟨some uri, name⟩

/-! ## Reading -/

/-- A text is split at its first closing brace. -/
theorem splitAtClose_eq_some_iff {cs uri name : List Char} :
    splitAtClose cs = some (uri, name) ↔ cs = uri ++ '\x7d' :: name ∧ '\x7d' ∉ uri := by
  induction cs generalizing uri with
  | nil => simp [splitAtClose]
  | cons c cs ih =>
    unfold splitAtClose
    by_cases hc : c = '\x7d'
    · -- the brace stands here, so nothing is before it
      rw [if_pos hc]
      constructor
      · intro h
        obtain ⟨rfl, rfl⟩ := Prod.mk.inj (Option.some.inj h)
        exact ⟨by rw [hc, List.nil_append], List.not_mem_nil⟩
      · rintro ⟨h, hno⟩
        cases uri with
        | nil => rw [(List.cons.inj h).2]
        | cons d uri =>
          have hd : c = d := (List.cons.inj h).1
          exact absurd (List.mem_cons.2 (.inl (hc.symm.trans hd))) hno
    · rw [if_neg hc, Option.map_eq_some_iff]
      constructor
      · rintro ⟨⟨uri', name'⟩, hsplit, heq⟩
        obtain ⟨rfl, rfl⟩ := Prod.mk.inj heq
        obtain ⟨rfl, hno⟩ := ih.1 hsplit
        exact ⟨rfl, List.not_mem_cons_of_ne_of_not_mem (Ne.symm hc) hno⟩
      · rintro ⟨h, hno⟩
        cases uri with
        | nil => exact absurd (List.cons.inj h).1 hc
        | cons d uri =>
          obtain ⟨rfl, hcs⟩ := List.cons.inj h
          exact ⟨(uri, name), ih.2 ⟨hcs, fun hmem => hno (List.mem_cons_of_mem c hmem)⟩, rfl⟩

/-- A name does not begin with a brace. -/
theorem toList_ne_of_isNCName {s : String} {rest : List Char} (h : isNCName s = true) :
    s.toList ≠ '\x7b' :: rest := by
  intro hs
  rw [isNCName, hs, isNCNameChars, Bool.and_eq_true] at h
  have hbrace : isNameStart '\x7b' = false := by decide
  rw [hbrace] at h
  cases h.1

/-- The reader of a text in braces, for any way of splitting it. -/
theorem ofClark_of_split {s : String} {uri name : List Char}
    (hs : s.toList = '\x7b' :: (uri ++ '\x7d' :: name)) (hno : '\x7d' ∉ uri) :
    ofClark s = if isNCName (String.ofList name) then
        .ok ⟨if uri.isEmpty then none else some (String.ofList uri), String.ofList name⟩
      else .error (.invalidName (String.ofList name)) := by
  unfold ofClark
  rw [hs]
  simp only [splitAtClose_eq_some_iff.2 ⟨rfl, hno⟩]

theorem isClark_of_ofClark {s : String} {n : ExpandedName} (h : ofClark s = .ok n) :
    IsClark s n := by
  by_cases hbrace : ∃ rest, s.toList = '\x7b' :: rest
  · obtain ⟨rest, hs⟩ := hbrace
    cases hsplit : splitAtClose rest with
    | none =>
      unfold ofClark at h
      rw [hs] at h
      simp only [hsplit] at h
      cases h
    | some parts =>
      obtain ⟨uri, name⟩ := parts
      obtain ⟨rfl, hno⟩ := splitAtClose_eq_some_iff.1 hsplit
      rw [ofClark_of_split hs hno] at h
      split at h
      · next hname =>
        obtain rfl := Except.ok.inj h
        cases uri with
        | nil =>
          have hs' : s = "\x7b\x7d" ++ String.ofList name :=
            String.toList_injective (by simpa using hs)
          rw [hs']
          exact .emptyBraces hname
        | cons c uri =>
          have hs' : s = "\x7b" ++ String.ofList (c :: uri) ++ "\x7d" ++ String.ofList name :=
            String.toList_injective (by simpa using hs)
          rw [hs']
          exact .braced hname (by simp) (by simpa using hno)
      · cases h
  · unfold ofClark at h
    split at h
    · next rest hs => exact absurd ⟨rest, hs⟩ hbrace
    · split at h
      · next hname =>
        obtain rfl := Except.ok.inj h
        exact .bare hname
      · cases h

theorem ofClark_of_isClark {s : String} {n : ExpandedName} (h : IsClark s n) :
    ofClark s = .ok n := by
  cases h with
  | bare hname =>
    unfold ofClark
    split
    · next rest hs => exact absurd hs (toList_ne_of_isNCName hname)
    · rw [if_pos hname]
  | @emptyBraces name hname =>
    have hs : ("\x7b\x7d" ++ name).toList = '\x7b' :: ([] ++ '\x7d' :: name.toList) := by simp
    rw [ofClark_of_split hs List.not_mem_nil, String.ofList_toList, if_pos hname]
    rfl
  | @braced uri name hname huri hno =>
    have hs : ("\x7b" ++ uri ++ "\x7d" ++ name).toList =
        '\x7b' :: (uri.toList ++ '\x7d' :: name.toList) := by simp
    have hne : uri.toList.isEmpty = false := by
      rw [Bool.eq_false_iff, Ne, List.isEmpty_iff]
      exact fun h => huri (String.toList_injective h)
    rw [ofClark_of_split hs hno, String.ofList_toList, String.ofList_toList, if_pos hname, hne]
    rfl

/-- The reader accepts the texts in Clark form, and finds the names that they stand for. -/
theorem ofClark_eq_ok_iff {s : String} {n : ExpandedName} :
    ofClark s = .ok n ↔ IsClark s n :=
  ⟨isClark_of_ofClark, ofClark_of_isClark⟩

/-! ## Reading back -/

theorem IsClark.isNCName {s : String} {n : ExpandedName} (h : IsClark s n) :
    isNCName n.name = true := by
  cases h <;> assumption

/-- A name that was read has no empty namespace. -/
theorem IsClark.plain_eq {s : String} {n : ExpandedName} (h : IsClark s n) : n.plain = n := by
  cases h with
  | bare => rfl
  | emptyBraces => rfl
  | braced _ huri => simp [plain, huri]

/-- A name that was read is written so that it can be read again. -/
theorem IsClark.render {s : String} {n : ExpandedName} (h : IsClark s n) : IsClark n.render n := by
  cases h with
  | bare hname => exact .bare hname
  | emptyBraces hname => exact .bare hname
  | braced hname huri hno => exact .braced hname huri hno

end ExpandedName

namespace NameTable

open ExpandedName

variable {t out : NameTable} {c : String} {s : Symbol}

/-- Where the namespace and the local name of a Clark name have ids, the text of their symbol is
read as this symbol, and nothing is added to the table. -/
theorem internClark_render {n : ExpandedName} (hn : IsClark c n) {i j : Nat}
    (hi : t.spaces.find? (n.uri.getD "") = some i) (hj : t.names.find? n.name = some j)
    (hspace : i < NamespaceId.reserved.toNat) (hlabel : j < capacity) :
    t.internClark (t.render ⟨.ofNat i, .ofNat j⟩) = (.ok ⟨.ofNat i, .ofNat j⟩, t) := by
  have hname : t.nameOf? ⟨.ofNat i, .ofNat j⟩ = some n := by
    rw [(nameOf?_of_get? (Pool.find?_eq_some_iff.1 hi) (Pool.find?_eq_some_iff.1 hj) hspace
      hlabel).2]
    exact congrArg some hn.plain_eq
  have hread : ofClark (t.render ⟨.ofNat i, .ofNat j⟩) = .ok n := by
    unfold render
    rw [hname]
    exact ofClark_eq_ok_iff.2 hn.render
  unfold internClark
  rw [hread]
  exact intern_eq_self hn.isNCName hi hj hlabel

/-- What it takes that a symbol was given for a text in Clark form. -/
theorem internClark_eq_ok (h : t.internClark c = (.ok s, out)) :
    ∃ n i j, IsClark c n ∧ out.spaces.find? (n.uri.getD "") = some i ∧
      out.names.find? n.name = some j ∧ j < capacity ∧ s = ⟨.ofNat i, .ofNat j⟩ := by
  unfold internClark at h
  split at h
  · next n hn =>
    obtain ⟨-, i, j, hnumbers⟩ := intern_eq_ok h
    exact ⟨n, i, j, ofClark_eq_ok_iff.1 hn, hnumbers⟩
  · cases h

end NameTable

/-- A text is read as a name just when it is a Clark form of the name. A symbol that was given for a
text while there was an id for each namespace can be asked for by the text that the table writes for
it, after any other requests, and this adds nothing to the table. -/
theorem clark_names_read_back :
    (∀ c n, ExpandedName.ofClark c = .ok n ↔ ExpandedName.IsClark c n) ∧
    ∀ (t : NameTable) c s, (t.internClark c).1 = .ok s → (t.internClark c).2.NumbersSpaces →
      ∀ rs, let later := ((t.internClark c).2.serveAll rs).2
        later.internClark (later.render s) = (.ok s, later) := by
  refine ⟨fun c n => ExpandedName.ofClark_eq_ok_iff, fun t c s h hids rs => ?_⟩
  intro later
  obtain ⟨n, i, j, hn, hi, hj, hlabel, rfl⟩ := NameTable.internClark_eq_ok (Prod.ext h rfl)
  have hgrows : (t.internClark c).2.Grows later := NameTable.grows_serveAll _ rs
  exact NameTable.internClark_render hn (Pool.find?_mono hgrows.spaces hi)
    (Pool.find?_mono hgrows.names hj) (Nat.lt_of_lt_of_le (Pool.lt_length hi) hids) hlabel

/-- A name in a namespace whose URI holds an opening brace, and names that come after it. -/
theorem clark_names_read_back_braced :
    let t := (NameTable.empty.internClark "\x7burn:\x7ba\x7dx").2
    let later := (t.serveAll sampleRequests).2
    later.render ⟨1, 0⟩ = "\x7burn:\x7ba\x7dx" ∧
      later.internClark "\x7burn:\x7ba\x7dx" = (.ok ⟨1, 0⟩, later) := by
  intro t later
  have hrender : later.render ⟨1, 0⟩ = "\x7burn:\x7ba\x7dx" := by decide +kernel
  refine ⟨hrender, ?_⟩
  have hids : t.NumbersSpaces := show 2 ≤ NamespaceId.reserved.toNat by decide
  have hback := clark_names_read_back.2 .empty "\x7burn:\x7ba\x7dx" ⟨1, 0⟩ rfl hids sampleRequests
  rwa [← hrender]

end ElementContent
