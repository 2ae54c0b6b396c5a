/-!
# Names without colons

An *NCName* is an XML name without a colon, over the characters of the Basic Multilingual Plane.

- `isNameStart`, `isNameChar`: the characters that may begin, and that may continue, such a name.
- `isNCName`: a text is a name when it is not empty, begins well and continues well.
-/

namespace ElementContent

/-- A range of code points, both ends included. -/
structure CodeRange where
  first : Nat
  last : Nat

/-- Whether a character lies in the range. -/
def CodeRange.holds (r : CodeRange) (c : Char) : Bool :=
  decide (r.first ≤ c.toNat) && decide (c.toNat ≤ r.last)

/-- The ranges of the characters that may begin a name: the XML `NameStartChar` without the colon
and without the supplementary planes. -/
def nameStartRanges : List CodeRange :=
  [⟨0x41, 0x5A⟩, ⟨0x5F, 0x5F⟩, ⟨0x61, 0x7A⟩, ⟨0xC0, 0xD6⟩, ⟨0xD8, 0xF6⟩, ⟨0xF8, 0x2FF⟩,
    ⟨0x370, 0x37D⟩, ⟨0x37F, 0x1FFF⟩, ⟨0x200C, 0x200D⟩, ⟨0x2070, 0x218F⟩, ⟨0x2C00, 0x2FEF⟩,
    ⟨0x3001, 0xD7FF⟩, ⟨0xF900, 0xFDCF⟩, ⟨0xFDF0, 0xFFFD⟩]

/-- The ranges that a name may hold only after its first character: hyphen and full stop, digits,
the middle dot, the combining marks and the ties. -/
def nameExtraRanges : List CodeRange :=
  [⟨0x2D, 0x2E⟩, ⟨0x30, 0x39⟩, ⟨0xB7, 0xB7⟩, ⟨0x300, 0x36F⟩, ⟨0x203F, 0x2040⟩]

/-- Whether a character may begin a name. -/
def isNameStart (c : Char) : Bool :=
  nameStartRanges.any (·.holds c)

/-- Whether a character may stand in a name after its first character. -/
def isNameChar (c : Char) : Bool :=
  isNameStart c || nameExtraRanges.any (·.holds c)

/-- Whether a text, as its characters, is a name without a colon. -/
def isNCNameChars : List Char → Bool
  | [] => false
  | c :: cs => isNameStart c && cs.all isNameChar

/-- Whether a text is a name without a colon. -/
def isNCName (s : String) : Bool :=
  isNCNameChars s.toList

theorem isNameChar_of_isNameStart {c : Char} (h : isNameStart c = true) :
    isNameChar c = true := by
  simp [isNameChar, h]

theorem isNCName_empty : isNCName "" = false := rfl

/-- No name holds a brace, so the local part of a Clark name never runs into its namespace. -/
theorem not_isNameChar_brace : isNameChar '\x7b' = false ∧ isNameChar '\x7d' = false := by
  decide

end ElementContent
