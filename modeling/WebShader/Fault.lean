/-!
Contract: why a compilation stops.

Owns: the causes that no pass recovers from, and the wording of those that
have one.

Does not own: problems a pass recovers from; those are `Warning`s.
-/

namespace WebShader

/-- Where a fault lies: a file, a line, both or neither. -/
structure Location where
  path : Option String
  line : Option Int
  deriving DecidableEq, Repr

namespace Location

def unknown : Location :=
  ⟨none, none⟩

def text (location : Location) : String :=
  let path := match location.path with
    | some path => " in " ++ path
    | none => ""
  let line := match location.line with
    | some line => s!" at line {line}"
    | none => ""
  path ++ line

end Location

inductive Fault where
  | invalidShader (text : String) (location : Location)
  | missingFragmentStage (text : String) (location : Location)
  | includeTooDeep (path : String) (depth : Int)
  | notFetched (path : String) (reason : String)
  | unreadable
  | missingFile
  | isDirectory
  | notDirectory
  | invalidPath
  | definitionCloserInDirective
  | subscriptCloserInDirective
  | unnamedParameter
  deriving DecidableEq, Repr

namespace Fault

/-- The wording; nothing for a cause that the surroundings report in their own words. -/
def message? : Fault → Option String
  | .invalidShader text location => some (text ++ location.text)
  | .missingFragmentStage text location => some (text ++ location.text)
  | .includeTooDeep path depth =>
    some (s!"Include depth {depth} exceeded while including '" ++ path ++ "'" ++
      Location.text ⟨some path, none⟩)
  | .notFetched path reason => some ("Cannot fetch '" ++ path ++ "': " ++ reason)
  | _ => none

/-- The wording, or a short name of the cause. -/
def text (fault : Fault) : String :=
  match fault with
  | .unreadable => "unreadable"
  | .missingFile => "no such file or directory"
  | .isDirectory => "is a directory"
  | .notDirectory => "not a directory"
  | _ => fault.message?.getD ""

end Fault

end WebShader
