import ElementContent.Error
import ElementContent.Occurrence
import ElementContent.Text.Blank
import ElementContent.Text.Numeral

/-!
# Reading occurrence bounds from attribute values

The attributes `minOccurs` and `maxOccurs` hold a numeral each, with blanks around it or not;
`maxOccurs` may be `unbounded` instead. Either is 1 where it is absent, and the bounds must be in
order even then.
-/

namespace ElementContent

/-- The value of a numeral with blanks around it. -/
def trimmedWord? (s : String) : Option UInt32 :=
  word? (trim s.toList)

/-- The least number of occurrences. -/
def readMin : Option String → Except Error UInt32
  | none => .ok 1
  | some s =>
    match trimmedWord? s with
    | some n => .ok n
    | none => .error (.content (.minOccursNotNumeral s))

/-- The bounds that a `minOccurs` and a `maxOccurs` attribute state. A bad `minOccurs` is reported
first; the report of a bad `maxOccurs` leaves out the blanks around it. -/
def Occurrence.ofAttributes (min max : Option String) : Except Error Occurrence := do
  let min ← readMin min
  match max.map trimText with
  | none => if 1 < min then .error (.content .minOccursTooGreat) else .ok ⟨min, some 1⟩
  | some s =>
    if s = "unbounded" then .ok ⟨min, none⟩
    else
      match word? s.toList with
      | none => .error (.content (.maxOccursNotNumeral s))
      | some max =>
        if max < min then .error (.content .maxOccursTooSmall) else .ok ⟨min, some max⟩

end ElementContent
