/-
# Source.JsonTraverse — json-traverse.c

The tree is the one `json_parse` returns. Its strings and member names are counted by
length and may hold NUL bytes; the source reads them through their `char *`, so it sees
`cstr` of them. The tag `json_none` marks a value the parser has not finished and is in no
tree it returns.
-/
import Feedserver.Source.VcString
import Feedserver.Theory.JsonText

namespace Feedserver.Source

open Feedserver.Theory

set_option autoImplicit false

mutual

/-- `json_find_object`: the first member of that name, in the order of the text, at any
depth. Members inside a member are searched before the members after it. -/
def jsonFindObject (name : CString) : Json.Value → Option Json.Value
  | .object members => findInMembers name members
  | .array values => findInValues name values
  | _ => none

def findInMembers (name : CString) : List (Bytes × Json.Value) → Option Json.Value
  | [] => none
  | (n, value) :: rest =>
      if name = cstr n then some value
      else
        match jsonFindObject name value with
        | some jo => some jo
        | none => findInMembers name rest

def findInValues (name : CString) : List Json.Value → Option Json.Value
  | [] => none
  | value :: rest =>
      match jsonFindObject name value with
      | some jo => some jo
      | none => findInValues name rest

end

/-- `jv->u.string.ptr` of a value, as the C string it points to. -/
def stringPtr : Json.Value → Except Fault CString
  | .string s => .ok (cstr s)
  | _ => .error .wrongTag

end Feedserver.Source
