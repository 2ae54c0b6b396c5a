import ElementContent.Name.Table
import ElementContent.Text.Blank
import ElementContent.Wildcard

/-!
# Reading wildcards from attribute values

A schema states a wildcard by the attribute `namespace` or `notNamespace`: a keyword, or a list of
words between blanks. `##local` in a list is "no namespace", `##targetNamespace` is the target
namespace of the schema, other words that begin with `##` are refused, and any word else is a URI.

URIs take their ids from a name table as they are read, left to right; those before a refused word
keep theirs.
-/

namespace ElementContent

/-- Whether a word of a list is meant as a keyword. -/
def isKeyword (word : String) : Bool :=
  match word.toList with
  | '#' :: '#' :: _ => true
  | _ => false

/-- The set of the namespaces in a list of words, joined to those read so far. -/
def readSpaces (list : ListAttribute) (target : Option String) :
    List String → NamespaceSet → NameTable → Except Error NamespaceSet × NameTable
  | [], ids, t => (.ok ids, t)
  | word :: rest, ids, t =>
    if word = "##local" then readSpaces list target rest (ids.insert .absent) t
    else if word = "##targetNamespace" then
      let (id, t) := t.internSpace (target.getD "")
      readSpaces list target rest (ids.insert id) t
    else if isKeyword word then (.error (.content (.unknownKeyword word list)), t)
    else
      let (id, t) := t.internSpace word
      readSpaces list target rest (ids.insert id) t

/-- The wildcard of a `namespace` attribute. -/
def Wildcard.ofAdmitted (value : String) (target : Option String) (t : NameTable) :
    Except Error Wildcard × NameTable :=
  let value := trimText value
  if value = "##any" then (.ok .any, t)
  else if value = "##other" then
    let (id, t) := t.internSpace (target.getD "")
    (.ok (.other id), t)
  else
    let (ids, t) := readSpaces .admitted target (wordsOf value) .empty t
    (ids.map .oneOf, t)

/-- The wildcard of a `notNamespace` attribute, which has no keywords of its own. -/
def Wildcard.ofExcluded (value : String) (target : Option String) (t : NameTable) :
    Except Error Wildcard × NameTable :=
  let (ids, t) := readSpaces .excluded target (wordsOf value) .empty t
  (ids.map .noneOf, t)

end ElementContent
