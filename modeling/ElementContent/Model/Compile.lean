import ElementContent.Attribution.Check
import ElementContent.Automaton.Subset
import ElementContent.Model.Basic

/-!
# Making models

A declaration is *compiled* into a model. For a schema, the check for unique attribution is made on
the way, on an automaton that is built for it even where the model needs none; what is made of the
conflicts found is up to the options.

- `CompileOptions`: the kind of grammar, the limits, and what is wanted.
- `compile`: the model with the conflicts found, or the first error.
-/

namespace ElementContent

/-- The kind of grammar that a declaration belongs to. -/
inductive GrammarKind where
  /-- A document type definition. -/
  | dtd
  /-- A schema, in which attribution must be unique. -/
  | schema
  deriving DecidableEq, Repr

/-- The word for a kind of grammar. -/
def GrammarKind.render : GrammarKind → String
  | dtd => "dtd"
  | schema => "schema"

/-- What is made of conflicts of attribution. -/
inductive AttributionMode where
  /-- They are not looked for. -/
  | off
  /-- They are listed with the model. -/
  | report
  /-- They make the compilation fail. -/
  | strict
  deriving DecidableEq, Repr

/-- How declarations are compiled. -/
structure CompileOptions where
  kind : GrammarKind := .dtd
  limits : Limits := .standard
  attribution : AttributionMode := .report
  /-- Whether contents may be checked directly. -/
  wantDirect : Bool := true
  /-- Whether flat mixed contents may be looked up. -/
  wantMixed : Bool := true
  deriving DecidableEq, Repr

/-- Whether conflicts are looked for: in schemas, unless that is switched off. -/
def CompileOptions.checksAttribution (o : CompileOptions) : Bool :=
  o.kind == .schema && o.attribution != .off

/-- A model with the conflicts found. -/
structure CompiledModel where
  model : Model
  conflicts : List Conflict

/-- The automaton of a declaration. -/
def Declaration.automaton (d : Declaration) (limits : Limits) : Except Error Automaton := do
  let a ← Analysis.ofDeclaration d limits
  Automaton.ofAnalysis a limits

/-- Gives the model out with its conflicts, unless conflicts are an error. -/
def settle (o : CompileOptions) (m : Model) (conflicts : List Conflict) :
    Except Error CompiledModel :=
  if o.attribution = .strict ∧ conflicts ≠ [] then .error (.attribution conflicts)
  else .ok ⟨m, conflicts⟩

/-- Compiles a declaration. Messages have the names of elements from the table if there is one. -/
def compile (d : Declaration) (o : CompileOptions) (table : Option NameTable) :
    Except Error CompiledModel :=
  match Model.shortcut? d o.wantDirect o.wantMixed with
  | some m =>
    if o.checksAttribution then do
      let a ← d.automaton o.limits
      settle o m (a.conflicts d table)
    else .ok ⟨m, []⟩
  | none => do
    let a ← d.automaton o.limits
    settle o (.automaton a) (if o.checksAttribution then a.conflicts d table else [])

end ElementContent
