import ElementContent.Name.Table

/-!
# Name tables that grow

A pool only grows at its end, so a text keeps its number and a number keeps its text. A symbol
therefore stays the symbol of its name, whatever is interned after it, and as long as the ids have
not run out no other name has it.

- `Pool.find?_eq_some_iff`: the number of a text is the place where it stands.
- `NameTable.Grows`: texts are added behind those of a table.
- `NameTable.HasRoom`: there is an id for each text.
- `NameTable.intern_cases`, `NameTable.intern_eq_ok`: what interning a name does.
- `NameTable.nameOf?_of_find?`: a symbol has the name that it was found by, and is not reserved.
- `NameTable.find?_eq_some_iff`: a name is found just when interning it changes nothing.
-/

namespace ElementContent

namespace Pool

variable {p q : Pool} {s t : String} {i : Nat}

/-- No text stands twice, so the number of a text is the only place where it stands. -/
theorem find?_eq_some_iff : p.find? s = some i ↔ p.get? i = some s := by
  rw [find?, get?, List.idxOf?_eq_some_iff, List.getElem?_eq_some_iff]
  constructor
  · rintro ⟨hi, hs, -⟩
    exact ⟨hi, hs⟩
  · rintro ⟨hi, hs⟩
    refine ⟨hi, hs, fun j hj hs' => ?_⟩
    exact List.pairwise_iff_getElem.1 p.nodup j i _ hi hj (hs'.trans hs.symm)

theorem get?_mono (h : p.entries <+: q.entries) (hs : p.get? i = some s) :
    q.get? i = some s := by
  obtain ⟨rest, hrest⟩ := h
  have hi := (List.getElem?_eq_some_iff.1 hs).1
  rw [get?, ← hrest, List.getElem?_append_left hi]
  exact hs

theorem find?_mono (h : p.entries <+: q.entries) (hs : p.find? s = some i) :
    q.find? s = some i :=
  find?_eq_some_iff.2 (get?_mono h (find?_eq_some_iff.1 hs))

theorem add_of_find? (h : p.find? s = some i) : p.add s = (i, p) := by
  unfold add
  split
  · next j hj => rw [Option.some.inj (hj.symm.trans h)]
  · next hnone =>
    rw [h] at hnone
    cases hnone

theorem entries_add (p : Pool) (s : String) :
    (p.add s).2.entries = if s ∈ p.entries then p.entries else p.entries ++ [s] := by
  unfold add
  split
  · next i hi =>
    obtain ⟨hlt, rfl⟩ := List.getElem?_eq_some_iff.1 (find?_eq_some_iff.1 hi)
    rw [if_pos (List.getElem_mem hlt)]
  · next hnone => rw [if_neg (not_mem_of_find?_eq_none hnone)]

theorem prefix_add (p : Pool) (s : String) : p.entries <+: (p.add s).2.entries := by
  rw [entries_add]
  split
  · exact List.prefix_refl _
  · exact List.prefix_append ..

/-- A text is found where it has been added. -/
theorem find?_add (p : Pool) (s : String) : (p.add s).2.find? s = some (p.add s).1 := by
  cases h : p.find? s with
  | some i => rw [add_of_find? h, h]
  | none =>
    rw [find?_eq_some_iff, get?, entries_add, if_neg (not_mem_of_find?_eq_none h)]
    have hfst : (p.add s).1 = p.entries.length := by
      unfold add
      split
      · next i hi =>
        rw [h] at hi
        cases hi
      · rfl
    rw [hfst, List.getElem?_concat_length]

theorem lt_length (h : p.find? s = some i) : i < p.entries.length :=
  (List.getElem?_eq_some_iff.1 (find?_eq_some_iff.1 h)).1

end Pool

namespace NameTable

/-- Texts are added behind those of the table, and local names among them are names. -/
structure Grows (t t' : NameTable) : Prop where
  spaces : t.spaces.entries <+: t'.spaces.entries
  names : t.names.entries <+: t'.names.entries
  valid : (∀ name ∈ t.names.entries, isNCName name = true) →
    ∀ name ∈ t'.names.entries, isNCName name = true

/-- There is an id for each namespace, none of them the reserved one. -/
def NumbersSpaces (t : NameTable) : Prop :=
  t.spaces.entries.length ≤ NamespaceId.reserved.toNat

/-- There is an id for each namespace, none of them the reserved one, and for each local name. -/
structure HasRoom (t : NameTable) : Prop where
  spaces : t.spaces.entries.length ≤ NamespaceId.reserved.toNat
  names : t.names.entries.length ≤ capacity

variable {t t' t'' : NameTable} {uri : Option String} {name : String} {s : Symbol}

theorem Grows.refl (t : NameTable) : t.Grows t :=
  ⟨List.prefix_refl _, List.prefix_refl _, id⟩

theorem Grows.trans (h : t.Grows t') (h' : t'.Grows t'') : t.Grows t'' :=
  ⟨h.spaces.trans h'.spaces, h.names.trans h'.names, h'.valid ∘ h.valid⟩

theorem HasRoom.of_grows (h : t.Grows t') (ht' : t'.HasRoom) : t.HasRoom :=
  ⟨Nat.le_trans h.spaces.length_le ht'.spaces, Nat.le_trans h.names.length_le ht'.names⟩

theorem grows_internSpace (t : NameTable) (uri : String) : t.Grows (t.internSpace uri).2 :=
  ⟨t.spaces.prefix_add uri, List.prefix_refl _, id⟩

/-! ## Finding names -/

theorem find?_eq_some : t.find? uri name = some s ↔ ∃ i j, t.spaces.find? (uri.getD "") = some i ∧
    t.names.find? name = some j ∧ s = ⟨.ofNat i, .ofNat j⟩ := by
  simp only [find?, Option.bind_eq_bind, Option.bind_eq_some_iff, Option.pure_def,
    Option.some.injEq, exists_and_left, eq_comm (a := s)]

/-- Where there is an id for each namespace, two namespaces do not share one. -/
theorem NumbersSpaces.ofNat_eq_iff {u v : String} {i j : Nat} (h : t.NumbersSpaces)
    (hi : t.spaces.find? u = some i) (hj : t.spaces.find? v = some j) :
    (UInt32.ofNat i = UInt32.ofNat j) ↔ u = v := by
  have hlt {k : Nat} {s : String} (hk : t.spaces.find? s = some k) : k < UInt32.size :=
    Nat.lt_succ_of_lt (Nat.lt_of_lt_of_le (Pool.lt_length hk) h)
  constructor
  · intro heq
    have hnum : i = j := by
      have := congrArg UInt32.toNat heq
      rwa [UInt32.toNat_ofNat_of_lt' (hlt hi), UInt32.toNat_ofNat_of_lt' (hlt hj)] at this
    rw [hnum, Pool.find?_eq_some_iff] at hi
    exact Option.some.inj (hi.symm.trans (Pool.find?_eq_some_iff.1 hj))
  · rintro rfl
    rw [Option.some.inj (hi.symm.trans hj)]

/-- The id that a namespace is given is its number from then on. -/
theorem find?_internSpace (t : NameTable) (space : String) : ∃ i,
    (t.internSpace space).2.spaces.find? space = some i ∧ (t.internSpace space).1 = .ofNat i :=
  ⟨_, t.spaces.find?_add space, rfl⟩

theorem internSpace_eq_self {space : String} {i : Nat} (h : t.spaces.find? space = some i) :
    t.internSpace space = (.ofNat i, t) := by
  unfold internSpace
  rw [Pool.add_of_find? h]

/-- A name keeps its symbol. -/
theorem Grows.find? (h : t.Grows t') (hs : t.find? uri name = some s) :
    t'.find? uri name = some s := by
  obtain ⟨i, j, hi, hj, rfl⟩ := find?_eq_some.1 hs
  exact find?_eq_some.2
    ⟨i, j, Pool.find?_mono h.spaces hi, Pool.find?_mono h.names hj, rfl⟩

/-- The numbers of a namespace and of a local name are a symbol that has this name and is none of
the reserved ones, if there are ids for both. -/
theorem nameOf?_of_get? {space : String} {i j : Nat} (hi : t.spaces.get? i = some space)
    (hj : t.names.get? j = some name) (hspace : i < NamespaceId.reserved.toNat)
    (hlabel : j < capacity) : (⟨.ofNat i, .ofNat j⟩ : Symbol).isReserved = false ∧
      t.nameOf? ⟨.ofNat i, .ofNat j⟩ = some ⟨if space = "" then none else some space, name⟩ := by
  have hi' : (UInt32.ofNat i).toNat = i := UInt32.toNat_ofNat_of_lt' (Nat.lt_succ_of_lt hspace)
  have hj' : (UInt32.ofNat j).toNat = j := UInt32.toNat_ofNat_of_lt' (Nat.lt_succ_of_lt hlabel)
  have hreserved : (⟨.ofNat i, .ofNat j⟩ : Symbol).isReserved = false := by
    refine Bool.eq_false_iff.2 fun h => ?_
    have heq := hi'.symm.trans (congrArg UInt32.toNat (Symbol.isReserved_iff.1 h))
    omega
  refine ⟨hreserved, ?_⟩
  rw [nameOf?, if_neg (by simp [hreserved]), hi', hj', hi, hj]
  simp [String.isEmpty_iff]

/-- A symbol has the name that it was found by, and is none of the reserved ones. -/
theorem nameOf?_of_find? (h : t.find? uri name = some s) (hroom : t.HasRoom) :
    s.isReserved = false ∧
      t.nameOf? s = some ⟨if uri.getD "" = "" then none else some (uri.getD ""), name⟩ := by
  obtain ⟨i, j, hi, hj, rfl⟩ := find?_eq_some.1 h
  exact nameOf?_of_get? (Pool.find?_eq_some_iff.1 hi) (Pool.find?_eq_some_iff.1 hj)
    (Nat.lt_of_lt_of_le (Pool.lt_length hi) hroom.spaces)
    (Nat.lt_of_lt_of_le (Pool.lt_length hj) hroom.names)

/-! ## Interning names -/

theorem intern_of_isNCName (t : NameTable) (uri : Option String) (h : isNCName name = true) :
    t.intern uri name =
      (if (t.names.add name).1 < capacity then
        .ok ⟨.ofNat (t.spaces.add (uri.getD "")).1, .ofNat (t.names.add name).1⟩
      else .error .tableFull, ⟨(t.spaces.add (uri.getD "")).2, (t.names.add name).2⟩) := by
  unfold intern
  rw [if_pos h]
  dsimp only [internSpace]
  split <;> rfl

theorem grows_intern (t : NameTable) (uri : Option String) (name : String) :
    t.Grows (t.intern uri name).2 := by
  cases h : isNCName name with
  | false =>
    have hout : t.intern uri name = (.error (.invalidName name), t) := by simp [intern, h]
    rw [hout]
    exact .refl t
  | true =>
    rw [t.intern_of_isNCName uri h]
    refine ⟨t.spaces.prefix_add _, t.names.prefix_add name, fun hvalid name' hmem => ?_⟩
    rw [Pool.entries_add] at hmem
    split at hmem
    · exact hvalid name' hmem
    · rcases List.mem_append.1 hmem with hmem | hmem
      · exact hvalid name' hmem
      · rwa [List.mem_singleton.1 hmem]

/-- Where there is room, interning fails only if the name is none, and then leaves no trace. Any
other name is found afterwards by the symbol that it was given. -/
theorem intern_cases (hroom : (t.intern uri name).2.HasRoom) :
    (isNCName name = false ∧ t.intern uri name = (.error (.invalidName name), t)) ∨
      isNCName name = true ∧ ∃ s, (t.intern uri name).1 = .ok s ∧
        (t.intern uri name).2.find? uri name = some s := by
  cases h : isNCName name with
  | false => exact .inl ⟨rfl, by simp [intern, h]⟩
  | true =>
    rw [t.intern_of_isNCName uri h] at hroom ⊢
    have hspace := t.spaces.find?_add (uri.getD "")
    have hlabel := t.names.find?_add name
    have hlt : (t.names.add name).1 < capacity :=
      Nat.lt_of_lt_of_le (Pool.lt_length hlabel) hroom.names
    rw [if_pos hlt]
    exact .inr ⟨rfl, _, rfl, find?_eq_some.2 ⟨_, _, hspace, hlabel, rfl⟩⟩

/-- The symbol that a name is given is made of the numbers of its namespace and of its local name, by
which they are found from then on. -/
theorem intern_eq_ok {out : NameTable} (h : t.intern uri name = (.ok s, out)) :
    isNCName name = true ∧ ∃ i j, out.spaces.find? (uri.getD "") = some i ∧
      out.names.find? name = some j ∧ j < capacity ∧ s = ⟨.ofNat i, .ofNat j⟩ := by
  cases hname : isNCName name with
  | false =>
    simp only [intern, hname, Bool.false_eq_true, if_false] at h
    cases h
  | true =>
    rw [t.intern_of_isNCName uri hname] at h
    split at h
    · next hlt =>
      obtain ⟨hs, rfl⟩ := Prod.mk.inj h
      exact ⟨rfl, _, _, t.spaces.find?_add _, t.names.find?_add name, hlt,
        (Except.ok.inj hs).symm⟩
    · cases h

theorem find?_of_intern {out : NameTable} (h : t.intern uri name = (.ok s, out)) :
    out.find? uri name = some s := by
  obtain ⟨-, i, j, hi, hj, -, rfl⟩ := intern_eq_ok h
  exact find?_eq_some.2 ⟨i, j, hi, hj, rfl⟩

/-- A name of which both parts are known keeps its symbol and leaves the table as it is. -/
theorem intern_eq_self {i j : Nat} (hname : isNCName name = true)
    (hi : t.spaces.find? (uri.getD "") = some i) (hj : t.names.find? name = some j)
    (hlabel : j < capacity) : t.intern uri name = (.ok ⟨.ofNat i, .ofNat j⟩, t) := by
  rw [t.intern_of_isNCName uri hname, Pool.add_of_find? hi, Pool.add_of_find? hj, if_pos hlabel]

/-- A name is found just when interning it changes nothing. -/
theorem find?_eq_some_iff (hvalid : ∀ name ∈ t.names.entries, isNCName name = true)
    (hroom : t.HasRoom) : t.find? uri name = some s ↔ t.intern uri name = (.ok s, t) := by
  refine ⟨fun h => ?_, find?_of_intern⟩
  obtain ⟨i, j, hi, hj, rfl⟩ := find?_eq_some.1 h
  have hmem : name ∈ t.names.entries := List.mem_of_getElem? (Pool.find?_eq_some_iff.1 hj)
  exact intern_eq_self (hvalid name hmem) hi hj (Nat.lt_of_lt_of_le (Pool.lt_length hj) hroom.names)

end NameTable

end ElementContent
