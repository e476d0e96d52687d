import WebShader.Noted
import WebShader.Stage.Basic
import WebShader.Text.Reader
import WebShader.Token.Rename

/-!
Contract: stage source in the older dialect.

Owns: the declarations of stage inputs and outputs, the color output, and the
texture function.

Does not own: the newer dialect, in which sources arrive.
-/

namespace WebShader.Emission

open Text Reader

def interpolationWords : List String :=
  ["flat", "smooth", "noperspective", "centroid"]

def interpolation : Reader Unit :=
  repeated (do
    let _ ← literalIn interpolationWords
    someBlanks)

def precisionWord : Reader Unit := do
  let _ ← literalIn precisionQualifiers
  someBlanks

/-- Type, name, perhaps an array size, and a semicolon. -/
def declaredVariable : Reader Unit := do
  let _ ← word
  someBlanks
  let _ ← word
  blanks
  let _ ← Reader.optional bracketed
  blanks
  literal ";"

/-- An interface declaration up to its type: the blanks in front, and the direction. -/
def interfaceHead : Reader (String × String) := do
  let indent ← run isSpaceOrTab
  interpolation
  let direction ← literalIn ["in", "out"]
  someBlanks
  ahead ((precisionWord *> declaredVariable) <|> declaredVariable)
  return (indent, direction)

/-- The word for a direction in the older dialect. A fragment output that is no
color stays as it is. -/
def legacyDirection (stage : Stage) (direction : String) : String :=
  match stage, direction with
  | .vertex, "in" => "attribute "
  | .vertex, _ => "varying "
  | .fragment, "in" => "varying "
  | .fragment, _ => "out "

def legacyInterface (stage : Stage) (source : String) : String :=
  replaceAll lineStart interfaceHead
    (fun head => head.1 ++ legacyDirection stage head.2) source

def layoutQualifier : Reader Unit := do
  literal "layout"
  blanks
  literal "("
  let _ ← through ')'
  blanks

/-- A color output with the rest of its line if that is blank; the answer is its name. -/
def colorOutput : Reader String := do
  gap
  interpolation
  literal "out"
  someBlanks
  let _ ← Reader.optional precisionWord
  literal "vec4"
  someBlanks
  let name ← word
  blanks
  literal ";"
  gap
  let _ ← Reader.optional (literal "\n")
  return name

/-- Refers to the one color of the older dialect in the place of the outputs. -/
def mergeColors (outputs : List String) (source : String) : Noted String := do
  Noted.noteIf (1 < outputs.length) (.severalColors outputs)
  return Token.rename (outputs.map fun name => (name, "gl_FragColor")) source

def legacyStage (stage : Stage) (source : String) : Noted String :=
  match stage with
  | .vertex => pure (legacyInterface .vertex source)
  | .fragment =>
    let outputs := (findAll lineStart colorOutput source).map Found.value
    let withoutColors := replaceAll lineStart colorOutput (fun _ => "") source
    mergeColors outputs (legacyInterface .fragment withoutColors)

def toLegacy (stage : Stage) (source : String) : Noted String := do
  let withoutLayouts := replaceAll anywhere layoutQualifier (fun _ => "") source
  return Token.rename [("texture", "texture2D")] (← legacyStage stage withoutLayouts)

end WebShader.Emission
