import ElementContent.Model.Compile
import ElementContent.OrderedMap

/-!
# Registries

A *registry* holds the models of a grammar, one for each element type, in the order of their
declaration. Beside the models it keeps the conflicts of attribution that were found in the
contents, for those element types that have some. An element type is declared once.

- `Registry.declare`: compiles the content of an element type and enters what comes of it.
- `Registry.find?`: the model of an element type; `Registry.conflicts`: its conflicts.
- `Registry.validate`: the verdict on the children of an element.
-/

namespace ElementContent

/-- The models of a grammar. -/
structure Registry where
  /-- How contents are compiled. -/
  options : CompileOptions
  /-- The names of elements in messages, if they are known. -/
  table : Option NameTable
  /-- The models of the element types, in the order of their declaration. -/
  models : OrderedMap Symbol Model
  /-- The conflicts of those element types whose contents have some, in the order in which they were
  found. -/
  reports : OrderedMap Symbol (List Conflict)

namespace Registry

/-- The registry without models. -/
def empty (options : CompileOptions) (table : Option NameTable) : Registry :=
  ⟨options, table, .empty, .empty⟩

/-- The registry with names of elements for its messages from now on. -/
def withTable (r : Registry) (table : NameTable) : Registry :=
  { r with table := some table }

/-- The model of an element type. -/
def find? (r : Registry) (element : Symbol) : Option Model :=
  r.models.find? element

/-- Whether an element type is declared. -/
def contains (r : Registry) (element : Symbol) : Bool :=
  r.models.contains element

/-- The name of an element type in messages. -/
def nameOf (r : Registry) (element : Symbol) : String :=
  Term.showSymbol r.table element

/-- Enters the conflicts that were found in the content of an element type, if there are any. -/
def report (r : Registry) (element : Symbol) (conflicts : List Conflict) : Registry :=
  if conflicts.isEmpty then r
  else { r with reports := r.reports.insert element conflicts }

/-- Enters the model of an element type. -/
def enter (r : Registry) (element : Symbol) (model : Model) : Registry :=
  { r with models := r.models.insert element model }

/-- Enters what comes of the content of an element type: first the conflicts, then the model. -/
def record (r : Registry) (element : Symbol) (c : CompiledModel) : Registry :=
  (r.report element c.conflicts).enter element c.model

@[simp] theorem options_report (r : Registry) (element : Symbol) (conflicts : List Conflict) :
    (r.report element conflicts).options = r.options := by
  unfold report
  split <;> rfl

@[simp] theorem models_report (r : Registry) (element : Symbol) (conflicts : List Conflict) :
    (r.report element conflicts).models = r.models := by
  unfold report
  split <;> rfl

@[simp] theorem options_record (r : Registry) (element : Symbol) (c : CompiledModel) :
    (r.record element c).options = r.options :=
  r.options_report element c.conflicts

@[simp] theorem models_record (r : Registry) (element : Symbol) (c : CompiledModel) :
    (r.record element c).models = r.models.insert element c.model :=
  congrArg (·.insert element c.model) (r.models_report element c.conflicts)

theorem reports_record (r : Registry) (element : Symbol) (c : CompiledModel) :
    (r.record element c).reports =
      if c.conflicts.isEmpty then r.reports else r.reports.insert element c.conflicts := by
  unfold record report
  split <;> rfl

/-- Compiles the content of an element type. The outcome is the model or an error, with the registry
as it then is. -/
def declare (r : Registry) (element : Symbol) (d : Declaration) :
    Except Error Model × Registry :=
  if r.models.contains element then
    (.error (.content (.declaredTwice (r.nameOf element))), r)
  else
    match compile d r.options r.table with
    | .error e => (.error (e.locate (r.nameOf element)), r)
    | .ok c => (.ok c.model, r.record element c)

/-- The number of element types. -/
def size (r : Registry) : Nat :=
  r.models.size

/-- The element types in the order of their declaration. -/
def elements (r : Registry) : List Symbol :=
  r.models.keys

/-- The conflicts found in the content of an element type. -/
def conflicts (r : Registry) (element : Symbol) : List Conflict :=
  (r.reports.find? element).getD []

/-- The element types whose contents have conflicts, with these. -/
def allConflicts (r : Registry) : List (Symbol × List Conflict) :=
  r.reports.toList

/-- The verdict on the children of an element, if its type is declared. -/
def validate (r : Registry) (element : Symbol) (children : List Symbol) : Option Verdict :=
  (r.find? element).map fun m => m.validate children

/-- How many models there are of each strategy in use, by its first use. -/
def strategyCounts (r : Registry) : List (Strategy × Nat) :=
  let strategies := r.models.toList.map (·.2.strategy)
  strategies.eraseDups.map fun s => (s, strategies.count s)

end Registry

end ElementContent
