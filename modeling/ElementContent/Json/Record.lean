import ElementContent.Json.Reader
import ElementContent.Json.Writer
import ElementContent.Model.Basic

/-!
# JSON texts of records

Symbols, ids, conflicts and figures have a form as JSON. A record is written as an object with its
fields in a fixed order. It is read from an object with each of the fields once, in any order and
among other members, or from a list of the field values in their order. A number must be a plain
natural numeral that fits into its width.

- `Record`: the values that have such a form.
- `RecordKind.read?`: reads a value of a kind; `Record.write` writes it.
-/

namespace ElementContent

namespace JsonValue

/-- A natural number that fits into so many bits. -/
def word? (bits : Nat) : JsonValue → Option Nat
  | natural n => if n < 1 <<< bits then some n else none
  | _ => none

/-- A truth value. -/
def bool? : JsonValue → Option Bool
  | bool b => some b
  | _ => none

/-- A text. -/
def text? : JsonValue → Option String
  | text s => s
  | _ => none

/-- The value of the only member with a key. -/
def member? (members : List (Option String × JsonValue)) (key : String) : Option JsonValue :=
  match members.filter (·.1 == some key) with
  | [(_, value)] => some value
  | _ => none

/-- The values of the fields of a record, in the order of the keys. -/
def fields? (keys : List String) : JsonValue → Option (List JsonValue)
  | object members => if members.all (·.1.isSome) then keys.mapM (member? members) else none
  | list items => if items.length = keys.length then some items else none
  | _ => none

/-- A case of several with a value: the only member of an object. -/
def case? : JsonValue → Option (String × JsonValue)
  | object [(some key, value)] => some (key, value)
  | _ => none

/-- A case of several without a value: a text, or the key of a member that holds nothing. -/
def bareCase? : JsonValue → Option String
  | text s => s
  | object [(some key, null)] => some key
  | _ => none

end JsonValue

/-! ## Symbols -/

/-- The fields of a symbol. -/
def Symbol.keys : List String :=
  ["namespace", "local"]

/-- Reads a symbol. -/
def Symbol.ofJson? (v : JsonValue) : Option Symbol := do
  match ← v.fields? keys with
  | [space, label] => return ⟨.ofNat (← space.word? 32), .ofNat (← label.word? 32)⟩
  | _ => none

/-- Writes a symbol. -/
def Symbol.toJson (s : Symbol) : String :=
  JsonWriter.object (keys.zip [toString s.space.toNat, toString s.label.toNat])

/-! ## Conflicts -/

/-- Reads a claimant. -/
def Claimant.ofJson? (v : JsonValue) : Option Claimant := do
  match ← v.case? with
  | ("Declared", id) => return .declared (← id.word? 32)
  | ("Position", index) => return .position (← index.word? 64)
  | _ => none

/-- Writes a claimant. -/
def Claimant.toJson : Claimant → String
  | declared id => JsonWriter.object [("Declared", toString id)]
  | position index => JsonWriter.object [("Position", toString index)]

/-- The fields of a conflict. -/
def Conflict.keys : List String :=
  ["state", "first", "second", "description"]

/-- Reads a conflict. -/
def Conflict.ofJson? (v : JsonValue) : Option Conflict := do
  match ← v.fields? keys with
  | [state, first, second, description] =>
    return ⟨← state.word? 32, ← Claimant.ofJson? first, ← Claimant.ofJson? second,
      ← description.text?⟩
  | _ => none

/-- Writes a conflict. -/
def Conflict.toJson (c : Conflict) : String :=
  JsonWriter.object (keys.zip
    [toString c.state, c.first.toJson, c.second.toJson, JsonWriter.text c.description])

/-! ## Figures -/

/-- The strategy that a word stands for. -/
def Strategy.ofWord? (word : String) : Option Strategy :=
  [direct, mixed, automaton].find? fun s => s.render == word

/-- Reads a strategy. -/
def Strategy.ofJson? (v : JsonValue) : Option Strategy := do
  ofWord? (← v.bareCase?)

/-- Writes a strategy. -/
def Strategy.toJson (s : Strategy) : String :=
  JsonWriter.text s.render

/-- The fields of the figures of a model. -/
def ModelStats.keys : List String :=
  ["strategy", "positions", "states", "accepting_states", "has_duplicates"]

/-- Reads the figures of a model. -/
def ModelStats.ofJson? (v : JsonValue) : Option ModelStats := do
  match ← v.fields? keys with
  | [strategy, positions, states, acceptingStates, hasDuplicates] =>
    return ⟨← Strategy.ofJson? strategy, ← positions.word? 64, ← states.word? 64,
      ← acceptingStates.word? 64, ← hasDuplicates.bool?⟩
  | _ => none

/-- Writes the figures of a model. -/
def ModelStats.toJson (s : ModelStats) : String :=
  JsonWriter.object (keys.zip
    [s.strategy.toJson, toString s.positions, toString s.states, toString s.acceptingStates,
      JsonWriter.bool s.hasDuplicates])

/-! ## Records of any kind -/

/-- The kinds of values with a form as JSON. -/
inductive RecordKind where
  | symbol
  /-- An id of 32 bits: of a namespace or of a particle. -/
  | id
  | claimant
  | conflict
  | strategy
  | stats
  /-- The index of the first child that fails, of 64 bits. -/
  | index
  deriving DecidableEq, Repr

/-- A value with a form as JSON. -/
inductive Record where
  | symbol (s : Symbol)
  | number (n : Nat)
  | claimant (c : Claimant)
  | conflict (c : Conflict)
  | strategy (s : Strategy)
  | stats (s : ModelStats)
  deriving DecidableEq, Repr

/-- Reads a value of a kind. -/
def RecordKind.read? (kind : RecordKind) (v : JsonValue) : Option Record :=
  match kind with
  | symbol => (Symbol.ofJson? v).map .symbol
  | id => (v.word? 32).map .number
  | claimant => (Claimant.ofJson? v).map .claimant
  | conflict => (Conflict.ofJson? v).map .conflict
  | strategy => (Strategy.ofJson? v).map .strategy
  | stats => (ModelStats.ofJson? v).map .stats
  | index => (v.word? 64).map .number

/-- Writes a value. -/
def Record.write : Record → String
  | symbol s => s.toJson
  | number n => toString n
  | claimant c => c.toJson
  | conflict c => c.toJson
  | strategy s => s.toJson
  | stats s => s.toJson

/-- Reads the JSON text of a value of a kind and writes the value. -/
def RecordKind.normalize? (kind : RecordKind) (s : String) : Option String := do
  let v ← JsonValue.ofText? s
  let r ← kind.read? v
  return r.write

end ElementContent
