import ElementContent.Name.NCName
import ElementContent.Name.Symbol
import ElementContent.Attribution.Conflict

/-!
# What can go wrong

Names, attribute values, declarations and their compilation can fail; validation of children cannot,
it gives a verdict. Each cause is a constructor, and the wording is in one place.

- `ContentFault`: what is wrong with a declaration or with the attribute values it was read from;
  its `report` is a message, with the place and the source text where they are known.
- `Error`: every cause; `Error.kind` sorts them and `Error.message` words them.
-/

namespace ElementContent

/-- A message about a declaration, with the place and the source text it speaks of. -/
structure Report where
  message : String
  location : Option String := none
  source : Option String := none
  deriving DecidableEq, Repr

/-- The message, then the place, then the source text, each in a paragraph of its own. -/
def Report.render (r : Report) : String :=
  r.message
    ++ (match r.location with | some l => "\n\nLocation: " ++ l | none => "")
    ++ (match r.source with | some s => "\n\nSource:\n" ++ s | none => "")

/-- The attributes of a wildcard that hold a list of namespaces. -/
inductive ListAttribute where
  /-- The list of admitted namespaces. -/
  | admitted
  /-- The list of excluded namespaces. -/
  | excluded
  deriving DecidableEq, Repr

/-- The name of the attribute in a schema. -/
def ListAttribute.name : ListAttribute → String
  | admitted => "namespace"
  | excluded => "notNamespace"

/-- What is wrong with a declaration, or with an attribute value. Nodes and particles go by number.
-/
inductive ContentFault where
  /-- The root is not among the nodes. -/
  | rootOutOfRange (root : Nat)
  /-- A node names a child that does not stand before it. -/
  | childNotEarlier (node child : Nat)
  /-- A leaf names a particle beyond the declared ones. -/
  | undeclaredParticle (node : Nat) (particle : Nat)
  /-- A node is met twice on the way down from the root. -/
  | sharedNode (node : Nat)
  /-- The least number of occurrences exceeds the greatest. -/
  | invertedBounds (node : Nat) (min : UInt32) (max : Option UInt32)
  /-- An element type has a model already. -/
  | declaredTwice (element : String)
  /-- A word in a namespace list begins like a keyword and is none. -/
  | unknownKeyword (word : String) (list : ListAttribute)
  /-- The text of `minOccurs` is no numeral. -/
  | minOccursNotNumeral (text : String)
  /-- The text of `maxOccurs` is neither a numeral nor `unbounded`. -/
  | maxOccursNotNumeral (text : String)
  /-- `maxOccurs` is given and less than `minOccurs`. -/
  | maxOccursTooSmall
  /-- `maxOccurs` is absent, hence 1, and less than `minOccurs`. -/
  | minOccursTooGreat
  /-- A fault that speaks of no place, in the content of an element type. -/
  | inElement (fault : ContentFault) (element : String)
  deriving DecidableEq, Repr

/-- The place of a fault that lies in a node. -/
def atNode (node : Nat) : Option String :=
  some s!"node {node}"

/-- The text of a greatest number of occurrences inside a message. -/
def boundText : Option UInt32 → String
  | some max => s!"Some({max.toNat})"
  | none => "None"

/-- The wording of a fault. -/
def ContentFault.report : ContentFault → Report
  | .rootOutOfRange root =>
    { message := "content specification root is out of range", location := atNode root }
  | .childNotEarlier node child =>
    { message := s!"node {node} refers to node {child} which is not an earlier node",
      location := atNode node }
  | .undeclaredParticle node particle =>
    { message := s!"leaf refers to undeclared particle {particle}", location := atNode node }
  | .sharedNode node =>
    { message := "content specification node has more than one parent", location := atNode node }
  | .invertedBounds node min max =>
    { message := s!"minOccurs {min.toNat} is greater than maxOccurs " ++ boundText max,
      location := atNode node }
  | .declaredTwice element =>
    { message := "element type '" ++ element ++ "' is declared more than once" }
  | .unknownKeyword word list =>
    { message := "wrong value '" ++ word ++ "' in '" ++ list.name ++ "' attribute" }
  | .minOccursNotNumeral text =>
    { message := "minOccurs value is not a valid non-negative integer", source := some text }
  | .maxOccursNotNumeral text =>
    { message := "maxOccurs value must be a non-negative integer or 'unbounded'",
      source := some text }
  | .maxOccursTooSmall => { message := "maxOccurs must be 'unbounded' or greater than minOccurs" }
  | .minOccursTooGreat => { message := "minOccurs must be lesser or equal than maxOccurs" }
  | .inElement fault element =>
    { fault.report with location := some ("element '" ++ element ++ "'") }

/-- A count that a limit bounds. -/
inductive Measure where
  | positions
  | states
  | depth
  | copies
  deriving DecidableEq, Repr

/-- The wording of a count that exceeds its limit. -/
def Measure.excess (m : Measure) (count limit : Nat) : String :=
  match m with
  | .positions => s!"content model has {count} positions, maximum is {limit}"
  | .states => s!"automaton state count {count} exceeds maximum {limit}"
  | .depth => s!"content model depth {count} exceeds maximum {limit}"
  | .copies => s!"occurrence expansion to {count} copies exceeds maximum {limit}"

/-- The kinds of errors. -/
inductive ErrorKind where
  /-- A declaration or an attribute value is malformed. -/
  | content
  /-- Particles compete for a child. -/
  | attribution
  /-- A name is malformed. -/
  | name
  /-- A namespace is unknown. -/
  | space
  /-- A limit is exceeded. -/
  | limit
  /-- Anything else. -/
  | other
  deriving DecidableEq, Repr

/-- A text under the heading of its kind; two kinds have none. -/
def ErrorKind.headed (kind : ErrorKind) (detail : String) : String :=
  match kind with
  | .content => "parse error: " ++ detail
  | .name => "name error: " ++ detail
  | .space => "namespace error: " ++ detail
  | .limit => "limit exceeded: " ++ detail
  | .attribution | .other => detail

/-- Everything that can go wrong. -/
inductive Error where
  /-- A declaration or an attribute value is malformed. -/
  | content (fault : ContentFault)
  /-- Particles compete for a child, where that is forbidden. -/
  | attribution (conflicts : List Conflict)
  /-- A text is no name without a colon. -/
  | invalidName (text : String)
  /-- The brace before a namespace is never closed. -/
  | unclosedNamespace (text : String)
  /-- An id belongs to no known namespace. -/
  | unknownNamespace (id : NamespaceId)
  /-- No id is left for another name. -/
  | tableFull
  /-- A count exceeds its limit. -/
  | overLimit (measure : Measure) (count limit : Nat)
  deriving DecidableEq, Repr

/-- The summary of a list of conflicts: their number, then a line for each. -/
def conflictSummary (conflicts : List Conflict) : String :=
  s!"content model violates Unique Particle Attribution ({conflicts.length} conflict"
    ++ (if conflicts.length = 1 then "" else "s") ++ ")"
    ++ String.join (conflicts.map fun c => "\n  " ++ c.description)

namespace Error

/-- The kind of an error. -/
def kind : Error → ErrorKind
  | content _ => .content
  | attribution _ => .attribution
  | invalidName _ | unclosedNamespace _ => .name
  | unknownNamespace _ => .space
  | tableFull | overLimit _ _ _ => .limit

/-- The wording of an error without the heading of its kind. -/
def detail : Error → String
  | content fault => fault.report.render
  | attribution conflicts => conflictSummary conflicts
  | invalidName text => "Invalid NCName: '" ++ text ++ "'"
  | unclosedNamespace text => "Unterminated namespace in '" ++ text ++ "'"
  | unknownNamespace id => s!"unknown namespace id {id.toNat}"
  | tableFull => "symbol table is full"
  | overLimit measure count limit => measure.excess count limit

/-- The wording of an error. -/
def message (e : Error) : String :=
  e.kind.headed e.detail

/-- Names the element type in whose content a fault lies, if the fault speaks of no place. -/
def locate (element : String) : Error → Error
  | content fault =>
    if fault.report.location.isNone then content (.inElement fault element) else content fault
  | e => e

end Error

end ElementContent
