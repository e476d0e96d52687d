/-!
Contract: association lists that remember the order of insertion.

Owns: `put`, which gives a repeated key its last value in its first place.

Does not own: lookup, for which `List.lookup` serves.
-/

namespace WebShader.Assoc

/-- Sets the value of a key, in place if the key is there and at the end if not. -/
def put {α : Type} (key : String) (value : α) : List (String × α) → List (String × α)
  | [] => [(key, value)]
  | entry :: rest =>
    if entry.1 == key then (key, value) :: rest else entry :: put key value rest

end WebShader.Assoc
