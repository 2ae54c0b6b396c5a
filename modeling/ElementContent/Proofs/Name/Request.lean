import ElementContent.Proofs.Name.Table
import ElementContent.Wildcard.Attribute

/-!
# Requests to a name table

A name table is asked for namespaces, for symbols and for the wildcards of attributes, in any order.
All of these share its two pools, and a wildcard that is refused half-way has added to them. Symbols
do not suffer from it: as long as there are ids left, equal symbols are given for equal names and for
no others, and a symbol has its name ever after.

- `NameTable.Request`: what a table is asked for; `Request.name?` is the name that a symbol is asked for.
- `NameTable.serve`, `NameTable.serveAll`: the answers to one request and to several.
- `NameTable.grows_serve`: what a request does to a table, whether or not it is refused.
- `NameTable.serve_cases`: a request for a symbol is one to intern a name, if it can be read at all.
- `NameTable.find?_of_mem_serveAll`: a symbol that was given goes on being found by its name.
- `NameTable.serve_eq_of_error`: a request for a symbol that is refused leaves no trace.
-/

namespace ElementContent

/-- The expanded name with an empty URI taken for none. -/
def ExpandedName.plain (n : ExpandedName) : ExpandedName :=
  ⟨if n.uri.getD "" = "" then none else some (n.uri.getD ""), n.name⟩

namespace NameTable

/-- What a name table is asked for. -/
inductive Request where
  /-- The id of a namespace. -/
  | space (uri : String)
  /-- The symbol of a name with a namespace or with none. -/
  | named (uri : Option String) (name : String)
  /-- The symbol of an expanded name. -/
  | expanded (n : ExpandedName)
  /-- The symbol of a name in Clark form. -/
  | clark (s : String)
  /-- The wildcard of a `namespace` attribute. -/
  | admitted (value : String) (target : Option String)
  /-- The wildcard of a `notNamespace` attribute. -/
  | excluded (value : String) (target : Option String)
  deriving DecidableEq

namespace Request

/-- Whether a symbol is asked for. -/
def asksForSymbol : Request → Bool
  | named _ _ | expanded _ | clark _ => true
  | space _ | admitted _ _ | excluded _ _ => false

/-- The name that a symbol is asked for, unless it is in no Clark form. -/
def name? : Request → Option ExpandedName
  | named uri name => some ⟨uri, name⟩
  | expanded n => some n
  | clark s => (ExpandedName.ofClark s).toOption
  | space _ | admitted _ _ | excluded _ _ => none

end Request

/-- Answers a request: the symbol, if one is asked for, and the table as it then is. -/
def serve (t : NameTable) : Request → Except Error (Option Symbol) × NameTable
  | .space uri => (.ok none, (t.internSpace uri).2)
  | .named uri name => ((t.intern uri name).1.map some, (t.intern uri name).2)
  | .expanded n => ((t.internExpanded n).1.map some, (t.internExpanded n).2)
  | .clark s => ((t.internClark s).1.map some, (t.internClark s).2)
  | .admitted value target =>
    ((Wildcard.ofAdmitted value target t).1.map fun _ => none, (Wildcard.ofAdmitted value target t).2)
  | .excluded value target =>
    ((Wildcard.ofExcluded value target t).1.map fun _ => none, (Wildcard.ofExcluded value target t).2)

/-- Answers requests one after the other. -/
def serveAll (t : NameTable) :
    List Request → List (Request × Except Error (Option Symbol)) × NameTable
  | [] => ([], t)
  | r :: rs => ((r, (t.serve r).1) :: ((t.serve r).2.serveAll rs).1, ((t.serve r).2.serveAll rs).2)

variable {t t' : NameTable} {r : Request} {s : Symbol} {n : ExpandedName}

/-! ## Requests let a table grow -/

theorem grows_readSpaces (t : NameTable) (list : ListAttribute) (target : Option String)
    (words : List String) (ids : NamespaceSet) : t.Grows (readSpaces list target words ids t).2 := by
  induction words generalizing ids t with
  | nil => exact .refl t
  | cons word rest ih =>
    unfold readSpaces
    split
    · exact ih t _
    · split
      · exact (t.grows_internSpace _).trans (ih _ _)
      · split
        · exact .refl t
        · exact (t.grows_internSpace _).trans (ih _ _)

theorem grows_ofAdmitted (t : NameTable) (value : String) (target : Option String) :
    t.Grows (Wildcard.ofAdmitted value target t).2 := by
  unfold Wildcard.ofAdmitted
  generalize trimText value = value
  dsimp only
  split
  · exact .refl t
  · split
    · exact t.grows_internSpace _
    · exact t.grows_readSpaces .admitted target (wordsOf value) .empty

theorem grows_ofExcluded (t : NameTable) (value : String) (target : Option String) :
    t.Grows (Wildcard.ofExcluded value target t).2 :=
  t.grows_readSpaces .excluded target (wordsOf value) .empty

theorem grows_internClark (t : NameTable) (s : String) : t.Grows (t.internClark s).2 := by
  unfold internClark
  split
  · exact t.grows_intern _ _
  · exact .refl t

/-- A request adds to the table, be it refused or not. -/
theorem grows_serve (t : NameTable) (r : Request) : t.Grows (t.serve r).2 := by
  cases r with
  | space uri => exact t.grows_internSpace uri
  | named uri name => exact t.grows_intern uri name
  | expanded n => exact t.grows_intern n.uri n.name
  | clark s => exact t.grows_internClark s
  | admitted value target =>
    rw [serve]
    exact t.grows_ofAdmitted value target
  | excluded value target => exact t.grows_ofExcluded value target

theorem grows_serveAll (t : NameTable) (rs : List Request) : t.Grows (t.serveAll rs).2 := by
  induction rs generalizing t with
  | nil => exact .refl t
  | cons r rs ih => exact (t.grows_serve r).trans (ih _)

/-! ## Requests for symbols -/

/-- A request for a symbol is one to intern a name, or it is refused because it is in no Clark form.
Any other request gives no symbol. -/
theorem serve_cases (t : NameTable) (r : Request) :
    (r.asksForSymbol = false ∧ ∀ s, (t.serve r).1 ≠ .ok (some s)) ∨
      (∃ e, t.serve r = (.error e, t)) ∨
      ∃ n, r.name? = some n ∧ t.serve r =
        ((t.intern n.uri n.name).1.map some, (t.intern n.uri n.name).2) := by
  have hwildcard (w : Except Error Wildcard) (s : Symbol) :
      (w.map fun _ => (none : Option Symbol)) ≠ .ok (some s) := by
    cases w <;> rintro ⟨⟩
  cases r with
  | space uri => exact .inl ⟨rfl, fun s => by rintro ⟨⟩⟩
  | named uri name => exact .inr (.inr ⟨⟨uri, name⟩, rfl, rfl⟩)
  | expanded n => exact .inr (.inr ⟨n, rfl, rfl⟩)
  | clark c =>
    cases hclark : ExpandedName.ofClark c with
    | ok n =>
      refine .inr (.inr ⟨n, ?_, ?_⟩)
      · simp only [Request.name?, hclark, Except.toOption]
      · simp only [serve, internClark, hclark, internExpanded]
    | error e =>
      refine .inr (.inl ⟨e, ?_⟩)
      simp only [serve, internClark, hclark]
      rfl
  | admitted value target =>
    refine .inl ⟨rfl, ?_⟩
    rw [serve]
    exact hwildcard _
  | excluded value target =>
    refine .inl ⟨rfl, ?_⟩
    rw [serve]
    exact hwildcard _

/-- A symbol that is given is the one by which the name is found. -/
theorem find?_of_serve (h : (t.serve r).1 = .ok (some s)) :
    ∃ n, r.name? = some n ∧ (t.serve r).2.find? n.uri n.name = some s := by
  rcases t.serve_cases r with ⟨-, hnone⟩ | ⟨e, hout⟩ | ⟨n, hn, hout⟩
  · exact absurd h (hnone s)
  · rw [hout] at h
    cases h
  · rw [hout] at h ⊢
    refine ⟨n, hn, ?_⟩
    cases hintern : (t.intern n.uri n.name).1 with
    | error e =>
      rw [hintern] at h
      cases h
    | ok s' =>
      rw [hintern] at h
      obtain rfl : s' = s := Option.some.inj (Except.ok.inj h)
      exact find?_of_intern (Prod.ext hintern rfl)

/-- Whatever requests come after it, a symbol that is given is the one by which the name is found. -/
theorem find?_of_mem_serveAll {rs : List Request} (h : (r, .ok (some s)) ∈ (t.serveAll rs).1)
    (hroom : (t.serveAll rs).2.HasRoom) :
    ∃ n, r.name? = some n ∧ (t.serveAll rs).2.find? n.uri n.name = some s := by
  induction rs generalizing t with
  | nil => cases h
  | cons r' rs ih =>
    rcases List.mem_cons.1 h with heq | h
    · obtain ⟨rfl, hs⟩ := Prod.mk.inj heq
      have hgrows := (t.serve r).2.grows_serveAll rs
      obtain ⟨n, hn, hfind⟩ := find?_of_serve hs.symm
      exact ⟨n, hn, hgrows.find? hfind⟩
    · exact ih h hroom

/-- Where there is room, a request for a symbol that is refused leaves no trace. -/
theorem serve_eq_of_error {e : Error} (hr : r.asksForSymbol = true) (h : (t.serve r).1 = .error e)
    (hroom : (t.serve r).2.HasRoom) : (t.serve r).2 = t := by
  rcases t.serve_cases r with ⟨hother, -⟩ | ⟨e', hout⟩ | ⟨n, -, hout⟩
  · rw [hr] at hother
    cases hother
  · rw [hout]
  · rw [hout] at h hroom ⊢
    rcases intern_cases hroom with ⟨-, hintern⟩ | ⟨-, s, hs, -⟩
    · rw [hintern]
    · simp only [hs] at h
      cases h

/-- A name is found by its URI and its local name alone. -/
theorem find?_congr {n n' : ExpandedName} (huri : n.uri.getD "" = n'.uri.getD "")
    (hname : n.name = n'.name) : t.find? n.uri n.name = t.find? n'.uri n'.name := by
  unfold find?
  rw [huri, hname]

theorem valid_serveAll_empty (rs : List Request) :
    ∀ name ∈ (empty.serveAll rs).2.names.entries, isNCName name = true :=
  (empty.grows_serveAll rs).valid fun _ hmem => nomatch hmem

end NameTable

theorem ExpandedName.plain_eq_iff {n n' : ExpandedName} :
    n.plain = n'.plain ↔ n.uri.getD "" = n'.uri.getD "" ∧ n.name = n'.name := by
  have huri (u v : String) :
      (if u = "" then none else some u) = (if v = "" then none else some v) ↔ u = v := by
    by_cases hu : u = "" <;> by_cases hv : v = "" <;> simp [hu, hv, eq_comm]
  rw [plain, plain, ExpandedName.mk.injEq, huri]

/-- After any requests for which there are ids, each symbol that was given is none of the reserved
ones and has the name that it was given for, and two of them are equal just when their names are, no
namespace being the same as an empty URI. A request for a symbol that is refused leaves no trace,
and a name is found just when interning it changes nothing. -/
theorem symbols_identify_names (rs : List NameTable.Request)
    (hroom : (NameTable.empty.serveAll rs).2.HasRoom) :
    let log := (NameTable.empty.serveAll rs).1
    let t := (NameTable.empty.serveAll rs).2
    (∀ r s, (r, .ok (some s)) ∈ log →
      ∃ n, r.name? = some n ∧ s.isReserved = false ∧ t.nameOf? s = some n.plain) ∧
    (∀ r s n r' s' n', (r, .ok (some s)) ∈ log → r.name? = some n →
      (r', .ok (some s')) ∈ log → r'.name? = some n' →
        (s = s' ↔ n.uri.getD "" = n'.uri.getD "" ∧ n.name = n'.name)) ∧
    (∀ r e, r.asksForSymbol = true → (t.serve r).1 = .error e → (t.serve r).2.HasRoom →
      (t.serve r).2 = t) ∧
    ∀ uri name s, t.find? uri name = some s ↔ t.intern uri name = (.ok s, t) := by
  intro log t
  have hgiven {r : NameTable.Request} {s : Symbol} {n : ExpandedName} (h : (r, .ok (some s)) ∈ log)
      (hn : r.name? = some n) : t.find? n.uri n.name = some s := by
    obtain ⟨n', hn', hfind⟩ := NameTable.find?_of_mem_serveAll h hroom
    rwa [Option.some.inj (hn.symm.trans hn')]
  refine ⟨fun r s h => ?_, fun r s n r' s' n' h hn h' hn' => ?_, fun r e hr he hroom' => ?_,
    fun uri name s => ?_⟩
  · obtain ⟨n, hn, hfind⟩ := NameTable.find?_of_mem_serveAll h hroom
    exact ⟨n, hn, NameTable.nameOf?_of_find? hfind hroom⟩
  · have hfind := hgiven h hn
    have hfind' := hgiven h' hn'
    constructor
    · rintro rfl
      have hname := (NameTable.nameOf?_of_find? hfind hroom).2
      have hname' := (NameTable.nameOf?_of_find? hfind' hroom).2
      exact ExpandedName.plain_eq_iff.1 (Option.some.inj (hname.symm.trans hname'))
    · rintro ⟨huri, hname⟩
      rw [NameTable.find?_congr huri hname] at hfind
      exact Option.some.inj (hfind.symm.trans hfind')
  · exact NameTable.serve_eq_of_error hr he hroom'
  · exact NameTable.find?_eq_some_iff (NameTable.valid_serveAll_empty rs) hroom

/-- A wildcard that is refused half-way, then a name in the namespace that it has left behind, and
the same local name in none. -/
def sampleRequests : List NameTable.Request :=
  [.admitted "urn:a ##bad urn:b" none, .clark "\x7burn:a\x7dx", .named none "x"]

theorem symbols_identify_names_sampleRequests :
    let t := (NameTable.empty.serveAll sampleRequests).2
    t.nameOf? ⟨1, 0⟩ = some ⟨some "urn:a", "x"⟩ ∧ t.nameOf? ⟨0, 0⟩ = some ⟨none, "x"⟩ ∧
      t.intern (some "urn:a") "x" = (.ok ⟨1, 0⟩, t) ∧ (t.serve (.named none "x y")).2 = t := by
  intro t
  have hroom : t.HasRoom := ⟨by decide +kernel, by decide +kernel⟩
  have hclark : (.clark "\x7burn:a\x7dx", .ok (some ⟨1, 0⟩)) ∈
      (NameTable.empty.serveAll sampleRequests).1 := List.mem_iff_getElem?.2 ⟨1, rfl⟩
  have hnamed : (.named none "x", .ok (some ⟨0, 0⟩)) ∈
      (NameTable.empty.serveAll sampleRequests).1 := List.mem_iff_getElem?.2 ⟨2, rfl⟩
  obtain ⟨hnames, -, hrefused, hfind⟩ := symbols_identify_names sampleRequests hroom
  refine ⟨?_, ?_, (hfind _ _ _).1 ?_, hrefused _ _ rfl rfl hroom⟩
  · obtain ⟨n, hn, -, hname⟩ := hnames _ _ hclark
    rw [hname, ← Option.some.inj hn]
    rfl
  · obtain ⟨n, hn, -, hname⟩ := hnames _ _ hnamed
    rw [hname, ← Option.some.inj hn]
    rfl
  · decide +kernel

end ElementContent
