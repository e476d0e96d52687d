import WebShader.Decimal.Shortest
import WebShader.Noted
import WebShader.Text.Reader

/-!
Contract: what the pragma lines of a shader declare about it.

Owns: tunable parameters with their ranges, the shader's name and its format.

Does not own: the stage pragmas, which divide the source.

Of two parameters with one name the first counts; of two names or formats the
last.
-/

namespace WebShader

open Text Reader

structure Parameter where
  name : String
  label : String
  initial : Float
  least : Float
  most : Float
  step : Float

/-- A parameter, which must have a name. -/
def Parameter.make (name label : String) (initial least most step : Float) :
    Except Fault Parameter :=
  if name.isEmpty then .error .unnamedParameter
  else .ok { name, label, initial, least, most, step }

structure Annotations where
  parameters : List Parameter
  name : Option String
  format : Option String

namespace Annotations

open Reader

def empty : Annotations :=
  ⟨[], none, none⟩

def claimedNames (annotations : Annotations) : List String :=
  annotations.parameters.map Parameter.name

end Annotations

namespace Annotation

open Reader

def pragma (kind : String) : Reader Unit := do
  blanks
  literal "#"
  blanks
  literal "pragma"
  someBlanks
  literal kind

/-- Digits around an optional point, at least one of them. -/
def magnitude : Reader String :=
  (do
    let whole ← someRun isDigit
    let point ← Reader.optional (literal ".")
    let fraction ← Reader.run isDigit
    return whole ++ (if point.isSome then "." else "") ++ fraction) <|>
  (do
    literal "."
    let fraction ← someRun isDigit
    return "." ++ fraction)

def exponent : Reader String := do
  let mark ← literalIn ["e", "E"]
  let sign ← Reader.optional (literalIn ["-", "+"])
  let digits ← someRun isDigit
  return mark ++ sign.getD "" ++ digits

def number : Reader Float := do
  let sign ← Reader.optional (literalIn ["-", "+"])
  let digits ← magnitude
  let power ← Reader.optional exponent
  return (Decimal.readFloat? (sign.getD "" ++ digits ++ power.getD "")).getD 0.0

/-- A parameter: its name, a quoted label, the initial value, the range, and a step if given. -/
def parameter : Reader Parameter := do
  pragma "parameter"
  someBlanks
  let name ← word
  someBlanks
  literal "\""
  let label ← through '"'
  someBlanks
  let initial ← number
  someBlanks
  let least ← number
  someBlanks
  let most ← number
  let step ← Reader.optional (do someBlanks; number)
  return { name, label, initial, least, most, step := step.getD 0.0 }

/-- A pragma whose value is the next run of characters that are not blank. -/
def valued (kind : String) : Reader String := do
  pragma kind
  someBlanks
  someRun (!isBlank ·)

def startsParameter (line : String) : Bool :=
  (read? (do pragma "parameter"; wordEnd) line.toList).isSome

def addLine (annotations : Annotations) (line : String) (number : Nat) : Noted Annotations :=
  if startsParameter line then
    match parameter.read? line.toList with
    | none => do
        Noted.note (.malformedParameter number (trim line))
        return annotations
    | some (found, _) =>
      if annotations.claimedNames.contains found.name then pure annotations
      else pure { annotations with parameters := annotations.parameters ++ [found] }
  else
    match (valued "name").read? line.toList with
    | some (name, _) => pure { annotations with name := some name }
    | none =>
      match (valued "format").read? line.toList with
      | some (format, _) => pure { annotations with format := some format }
      | none => pure annotations

end Annotation

def Annotations.ofSource (source : String) : Noted Annotations :=
  (lines source).zipIdx.foldlM
    (fun annotations entry => Annotation.addLine annotations entry.1 (entry.2 + 1))
    Annotations.empty

end WebShader
