import WebShader.Assoc
import WebShader.Decimal.Reader
import WebShader.Noted

/-!
Contract: resources that a shader declares with a layout.

Owns: blocks, push constants and samplers as records, and the reading of the
qualifiers inside `layout(...)`.

Does not own: finding them in a source; that is `Binding.Table`.
-/

namespace WebShader

open Text

inductive BindingKind where
  | uniformBlock
  | pushConstant
  | sampler
  deriving DecidableEq, Repr

/-- A member of a block; an array keeps its size in brackets. -/
structure BlockMember where
  typeName : String
  name : String
  arraySuffix : String
  deriving DecidableEq, Repr

/-- A declaration. `typeName` is a sampler's type or a block's own name, and
`instanceName` is a sampler's name or the name through which a block is used. -/
structure Binding where
  kind : BindingKind
  set : Int
  slot : Option Int
  typeName : String
  instanceName : Option String
  members : List BlockMember
  start : Nat
  stop : Nat
  deriving DecidableEq, Repr

namespace Binding

def memberNames (binding : Binding) : List String :=
  binding.members.map BlockMember.name

end Binding

def bindingMemberNames (bindings : List Binding) : List String :=
  (bindings.flatMap Binding.memberNames).foldl
    (fun names name => if names.contains name then names else names ++ [name]) []

abbrev Layout := List (String × Option String)

namespace Layout

/-- One qualifier: a key, or a key and a value around the first equals sign. -/
def ofPart (part : List Char) : String × Option String :=
  match cutAtFirst? '=' part with
  | some (key, value) => (trim (String.ofList key), some (trim (String.ofList value)))
  | none => (String.ofList part, none)

/-- Reads comma-separated qualifiers. A repeated key keeps its place and takes the last value. -/
def ofText (qualifiers : String) : Layout :=
  let parts := (splitAtEach ',' qualifiers.toList).map (trimWhere isBlank)
  (parts.filter (!·.isEmpty)).foldl
    (fun layout part =>
      let entry := ofPart part
      Assoc.put entry.1 entry.2 layout) []

def has (layout : Layout) (key : String) : Bool :=
  (layout.lookup key).isSome

/-- The integer value of a qualifier. A value that is no integer is reported and
counts as absent. -/
def int? (layout : Layout) (key : String) : Noted (Option Int) :=
  match (layout.lookup key).join with
  | none => pure none
  | some text =>
    match Decimal.readMarkedInt? text with
    | some value => pure (some value)
    | none => do
        Noted.note (.nonNumericLayout text)
        return none

end Layout

end WebShader
