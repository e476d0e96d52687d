import WebShader.Assoc
import WebShader.Noted
import WebShader.Options
import WebShader.Stage.Basic
import WebShader.Text.Lowercase
import WebShader.Text.Reader

/-!
Contract: dividing a source into its stages.

Owns: the stage pragmas, the preamble lines that both stages keep, and the
vertex stage that stands in for a missing one.

Does not own: the definitions of the preamble; those are `Preamble`.

The fragment stage must be there. Sections of one stage are joined in order.
-/

namespace WebShader

open Text Reader

structure StageSplit where
  preamble : String
  vertex : String
  synthesized : Bool
  fragment : String
  deriving DecidableEq, Repr

namespace StageSplit

open Reader

def pragma : Reader Unit := do
  blanks
  literal "#"
  blanks
  literal "pragma"

def stageName? (line : String) : Option String :=
  let reader : Reader String := do
    pragma
    someBlanks
    literal "stage"
    someBlanks
    word
  (reader.read? line.toList).map fun found => lower found.1

def isPragma (line : String) : Bool :=
  (read? (do pragma; wordEnd) line.toList).isSome

def isParameter (line : String) : Bool :=
  let reader : Reader Unit := do
    pragma
    someBlanks
    literal "parameter"
    wordEnd
  (reader.read? line.toList).isSome

def keptDirectives : List String :=
  ["define", "undef", "if", "ifdef", "ifndef", "elif", "else", "endif"]

def isKeptDirective (line : String) : Bool :=
  let reader : Reader String := do
    blanks
    literal "#"
    blanks
    word
  (reader.read? line.toList).any fun found => keptDirectives.contains found.1

def isBareUniform (line : String) : Bool :=
  let reader : Reader Unit := do
    blanks
    literal "uniform"
    someBlanks
  (reader.read? line.toList).isSome

/-- Whether both stages keep a preamble line. -/
def keepsPreambleLine (line : String) : Bool :=
  isParameter line || isKeptDirective line || isBareUniform line

/-- Whether a stage keeps one of its own lines: pragmas other than parameters go. -/
def keepsStageLine (line : String) : Bool :=
  !isPragma line || isParameter line

/-- Lines seen so far: the kept preamble, the sections by name in order, and the open section. -/
structure Sections where
  preamble : List String
  bodies : List (String × List String)
  current : Option String
  deriving DecidableEq, Repr

/-- Starts the section of a stage; a second one continues the first. -/
def startSection (sections : Sections) (name : String) : Noted Sections :=
  match sections.bodies.lookup name with
  | some _ => do
      Noted.note (.repeatedStage name)
      return { sections with current := some name }
  | none =>
    pure { sections with bodies := sections.bodies ++ [(name, [])], current := some name }

def addLine (sections : Sections) (line : String) : Noted Sections :=
  match stageName? line with
  | some name => startSection sections name
  | none =>
    match sections.current with
    | none =>
      if keepsPreambleLine line then
        pure { sections with preamble := sections.preamble ++ [line] }
      else pure sections
    | some name =>
      if keepsStageLine line then
        let body := (sections.bodies.lookup name).getD []
        pure { sections with bodies := Assoc.put name (body ++ [line]) sections.bodies }
      else pure sections

/-- A vertex stage that passes position and texture coordinate through. -/
def defaultVertex (options : Options) : String :=
  "layout(location = 0) in vec4 " ++ options.positionAttribute ++ ";\n" ++
  "layout(location = 1) in vec2 " ++ options.texcoordAttribute ++ ";\n" ++
  "layout(location = 0) out vec2 " ++ options.texcoordChannel ++ ";\n" ++
  "uniform mat4 " ++ options.transformUniform ++ ";\n" ++
  "\n" ++
  "void main()\n" ++
  "\x7b\n" ++
  "    gl_Position = " ++ options.transformUniform ++ " * " ++ options.positionAttribute ++ ";\n" ++
  "    " ++ options.texcoordChannel ++ " = " ++ options.texcoordAttribute ++ ";\n" ++
  "\x7d\n"

def noteUnknownStages : List String → Noted Unit
  | [] => pure ()
  | name :: others => do
      Noted.noteIf (name != "vertex" && name != "fragment") (.unknownStage name)
      noteUnknownStages others

def ofSource (options : Options) (source : String) : ExceptT Fault Noted StageSplit := do
  let sections ← ((lines source).foldlM addLine ⟨[], [], none⟩ : Noted Sections)
  noteUnknownStages (sections.bodies.map (·.1))
  match sections.bodies.lookup "fragment" with
  | none =>
    throw (.missingFragmentStage "Shader has no '#pragma stage fragment' section" .unknown)
  | some fragment =>
    let vertex := sections.bodies.lookup "vertex"
    return {
      preamble := unlines sections.preamble
      vertex := (vertex.map unlines).getD (defaultVertex options)
      synthesized := vertex.isNone
      fragment := unlines fragment }

end StageSplit

end WebShader
