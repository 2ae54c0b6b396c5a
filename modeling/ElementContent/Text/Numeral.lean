/-!
# Numerals of 32-bit words

A *numeral* is one or more ASCII digits, with a plus sign before them or not, whose value fits into
32 bits. Zeros in front are allowed.

- `digitsValue?`: the value of a text of digits.
- `word?`: the value of a numeral.
-/

namespace ElementContent

/-- The value of an ASCII digit. -/
def digit? (c : Char) : Option Nat :=
  if '0' ≤ c ∧ c ≤ '9' then some (c.toNat - '0'.toNat) else none

/-- The value of the digits, after `value` has been read from those before them. -/
def digitsFrom? (value : Nat) : List Char → Option Nat
  | [] => some value
  | c :: cs =>
    match digit? c with
    | some d => digitsFrom? (10 * value + d) cs
    | none => none

/-- The value of a text of digits; the empty text has none. -/
def digitsValue? : List Char → Option Nat
  | [] => none
  | cs => digitsFrom? 0 cs

/-- The digits of a numeral: what follows the plus sign, if there is one. -/
def unsigned : List Char → List Char
  | '+' :: cs => cs
  | cs => cs

/-- The value of a numeral that fits into 32 bits. -/
def word? (cs : List Char) : Option UInt32 :=
  match digitsValue? (unsigned cs) with
  | some n => if n < UInt32.size then some (.ofNat n) else none
  | none => none

end ElementContent
