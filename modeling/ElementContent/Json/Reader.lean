/-!
# Reading JSON texts

A reader for JSON texts that keeps as much of a value as the records need: a number that is written
as a plain natural numeral is kept, of any other number only that it is one; the members of an
object stay in order, with repeated keys; and a text whose escapes are no Unicode text has no value,
since it may still stand where nobody looks at it.

- `JsonValue`: what is kept.
- `JsonValue.ofText?`: reads a whole text, with blanks around the value or not.

Each part of the reader takes the characters that are left and gives what it has read with the rest.
-/

namespace ElementContent

/-- A JSON value as far as the records look at it. -/
inductive JsonValue where
  | null
  | bool (value : Bool)
  /-- A number written as digits only. -/
  | natural (value : Nat)
  /-- A number with a sign, a fraction or an exponent. -/
  | otherNumber
  /-- A text, or none if its escapes do not form Unicode text. -/
  | text (value : Option String)
  | list (items : List JsonValue)
  | object (members : List (Option String × JsonValue))

namespace JsonReader

/-- Whether a character may stand between the signs of a JSON text. -/
def isSpace (c : Char) : Bool :=
  c == ' ' || c == '\t' || c == '\n' || c == '\r'

/-- Passes over blanks. -/
def skipSpace (cs : List Char) : List Char :=
  cs.dropWhile isSpace

/-- Passes over a word that must stand at the beginning. -/
def skipWord? : List Char → List Char → Option (List Char)
  | [], cs => some cs
  | w :: ws, c :: cs => if w = c then skipWord? ws cs else none
  | _ :: _, [] => none

/-! ## Texts -/

/-- The value of a hexadecimal digit. -/
def hexDigit? (c : Char) : Option Nat :=
  if '0' ≤ c ∧ c ≤ '9' then some (c.toNat - '0'.toNat)
  else if 'a' ≤ c ∧ c ≤ 'f' then some (c.toNat - 'a'.toNat + 10)
  else if 'A' ≤ c ∧ c ≤ 'F' then some (c.toNat - 'A'.toNat + 10)
  else none

/-- The character that a backslash makes of the one after it, apart from `u`. -/
def shortEscape? : Char → Option Char
  | '"' => some '"'
  | '\\' => some '\\'
  | '/' => some '/'
  | 'b' => some '\x08'
  | 'f' => some '\x0c'
  | 'n' => some '\n'
  | 'r' => some '\r'
  | 't' => some '\t'
  | _ => none

/-- The code units of a text up to its closing quote. A character stands for its code point, an
escape with `u` for the 16-bit unit that it names. Control characters must be escaped. -/
def readUnits? : List Char → Option (List Nat × List Char)
  | '"' :: cs => some ([], cs)
  | '\\' :: 'u' :: a :: b :: c :: d :: cs => do
    let a ← hexDigit? a
    let b ← hexDigit? b
    let c ← hexDigit? c
    let d ← hexDigit? d
    let (units, rest) ← readUnits? cs
    return ((((a * 16 + b) * 16 + c) * 16 + d) :: units, rest)
  | '\\' :: e :: cs => do
    let c ← shortEscape? e
    let (units, rest) ← readUnits? cs
    return (c.toNat :: units, rest)
  | c :: cs =>
    if c.toNat < 0x20 ∨ c = '\\' then none
    else do
      let (units, rest) ← readUnits? cs
      return (c.toNat :: units, rest)
  | [] => none

/-- Whether a unit is the first half of a pair. -/
def isHighHalf (u : Nat) : Bool :=
  decide (0xD800 ≤ u) && decide (u < 0xDC00)

/-- Whether a unit is the second half of a pair. -/
def isLowHalf (u : Nat) : Bool :=
  decide (0xDC00 ≤ u) && decide (u < 0xE000)

/-- The characters that code units stand for; a half of a pair must stand beside the other half. -/
def decodeUnits? : List Nat → Option (List Char)
  | [] => some []
  | [u] => if isHighHalf u || isLowHalf u then none else some [Char.ofNat u]
  | u :: v :: units =>
    if isHighHalf u then
      if isLowHalf v then
        (decodeUnits? units).map (Char.ofNat (0x10000 + (u - 0xD800) * 0x400 + (v - 0xDC00)) :: ·)
      else none
    else if isLowHalf u then none
    else (decodeUnits? (v :: units)).map (Char.ofNat u :: ·)

/-- A text, after its opening quote. -/
def readText? (cs : List Char) : Option (Option String × List Char) :=
  (readUnits? cs).map fun (units, rest) => ((decodeUnits? units).map String.ofList, rest)

/-! ## Numbers -/

/-- Whether a character is a decimal digit. -/
def isDigit (c : Char) : Bool :=
  decide ('0' ≤ c) && decide (c ≤ '9')

/-- The number that digits stand for. -/
def digitsValue (cs : List Char) : Nat :=
  cs.foldl (fun n c => 10 * n + (c.toNat - '0'.toNat)) 0

/-- Passes over one or more digits. -/
def skipDigits? (cs : List Char) : Option (List Char) :=
  match cs with
  | c :: _ => if isDigit c then some (cs.dropWhile isDigit) else none
  | [] => none

/-- Passes over a fraction, if there is one, and tells whether there is. -/
def skipFraction? : List Char → Option (Bool × List Char)
  | '.' :: cs => (skipDigits? cs).map (true, ·)
  | cs => some (false, cs)

/-- Passes over an exponent, if there is one, and tells whether there is. -/
def skipExponent? : List Char → Option (Bool × List Char)
  | e :: cs =>
    if e = 'e' ∨ e = 'E' then
      match cs with
      | s :: cs => (skipDigits? (if s = '+' ∨ s = '-' then cs else s :: cs)).map (true, ·)
      | [] => none
    else some (false, e :: cs)
  | [] => some (false, [])

/-- The digits of a number before its fraction: a zero alone, or digits that do not begin with one.
-/
def readWhole? : List Char → Option (Nat × List Char)
  | '0' :: cs => some (0, cs)
  | cs => (skipDigits? cs).map fun rest => (digitsValue (cs.takeWhile isDigit), rest)

/-- A number. -/
def readNumber? (cs : List Char) : Option (JsonValue × List Char) := do
  let (negative, cs) := match cs with
    | '-' :: cs => (true, cs)
    | cs => (false, cs)
  let (n, cs) ← readWhole? cs
  let (fraction, cs) ← skipFraction? cs
  let (exponent, cs) ← skipExponent? cs
  return (if negative || fraction || exponent then .otherNumber else .natural n, cs)

/-! ## Values -/

mutual

/-- A value. Each nested list, object, item and member uses up a step. -/
def readValue? : Nat → List Char → Option (JsonValue × List Char)
  | 0, _ => none
  | steps + 1, cs =>
    match skipSpace cs with
    | '"' :: cs => (readText? cs).map fun (s, rest) => (.text s, rest)
    | '[' :: cs =>
      match skipSpace cs with
      | ']' :: cs => some (.list [], cs)
      | cs => (readItems? steps cs).map fun (items, rest) => (.list items, rest)
    | '\x7b' :: cs =>
      match skipSpace cs with
      | '\x7d' :: cs => some (.object [], cs)
      | cs => (readMembers? steps cs).map fun (members, rest) => (.object members, rest)
    | 't' :: cs => (skipWord? ['r', 'u', 'e'] cs).map (.bool true, ·)
    | 'f' :: cs => (skipWord? ['a', 'l', 's', 'e'] cs).map (.bool false, ·)
    | 'n' :: cs => (skipWord? ['u', 'l', 'l'] cs).map (.null, ·)
    | cs => readNumber? cs

/-- The items of a list, up to its closing bracket. -/
def readItems? : Nat → List Char → Option (List JsonValue × List Char)
  | 0, _ => none
  | steps + 1, cs =>
    match readValue? steps cs with
    | none => none
    | some (item, cs) =>
      match skipSpace cs with
      | ',' :: cs => (readItems? steps cs).map fun (items, rest) => (item :: items, rest)
      | ']' :: cs => some ([item], cs)
      | _ => none

/-- The members of an object, up to its closing brace. -/
def readMembers? : Nat → List Char → Option (List (Option String × JsonValue) × List Char)
  | 0, _ => none
  | steps + 1, cs =>
    match skipSpace cs with
    | '"' :: cs =>
      match readText? cs with
      | none => none
      | some (key, cs) =>
        match skipSpace cs with
        | ':' :: cs =>
          match readValue? steps cs with
          | none => none
          | some (value, cs) =>
            match skipSpace cs with
            | ',' :: cs =>
              (readMembers? steps cs).map fun (members, rest) => ((key, value) :: members, rest)
            | '\x7d' :: cs => some ([(key, value)], cs)
            | _ => none
        | _ => none
    | _ => none

end

end JsonReader

/-- Reads a text that holds one value and nothing else. Every second step takes a character at
least, so the steps suffice. -/
def JsonValue.ofText? (s : String) : Option JsonValue :=
  match JsonReader.readValue? (2 * s.length + 2) s.toList with
  | some (value, rest) => if (JsonReader.skipSpace rest).isEmpty then some value else none
  | none => none

end ElementContent
