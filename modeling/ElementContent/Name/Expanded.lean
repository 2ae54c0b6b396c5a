import ElementContent.Error

/-!
# Expanded names and their Clark form

An *expanded name* is a local name with an optional namespace URI. Its Clark form writes the URI in
braces before the local name.

- `ExpandedName.render`: the Clark form.
- `ExpandedName.ofClark`: reads it; empty braces stand for "no namespace".
-/

namespace ElementContent

/-- A local name in an optional namespace. -/
structure ExpandedName where
  /-- The namespace URI, if there is one. -/
  uri : Option String
  /-- The local name. -/
  name : String
  deriving DecidableEq, Repr

namespace ExpandedName

/-- The Clark form: the URI in braces, if there is one, then the local name. -/
def render (n : ExpandedName) : String :=
  match n.uri with
  | some uri => "\x7b" ++ uri ++ "\x7d" ++ n.name
  | none => n.name

/-- The text up to the first closing brace and the text after it, or `none` without one. -/
def splitAtClose : List Char → Option (List Char × List Char)
  | [] => none
  | c :: cs =>
    if c = '\x7d' then some ([], cs)
    else (splitAtClose cs).map fun (uri, name) => (c :: uri, name)

/-- Reads a name in Clark form. A brace that is never closed is reported before a bad local name. -/
def ofClark (s : String) : Except Error ExpandedName :=
  match s.toList with
  | '\x7b' :: rest =>
    match splitAtClose rest with
    | none => .error (.unclosedNamespace s)
    | some (uri, name) =>
      let name := String.ofList name
      if isNCName name then
        .ok ⟨if uri.isEmpty then none else some (String.ofList uri), name⟩
      else .error (.invalidName name)
  | _ => if isNCName s then .ok ⟨none, s⟩ else .error (.invalidName s)

end ExpandedName

/-- Accepts a name without a colon, and nothing else. -/
def checkNCName (s : String) : Except Error Unit :=
  if isNCName s then .ok () else .error (.invalidName s)

end ElementContent
