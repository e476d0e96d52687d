import WebShader.Text.Reader
import WebShader.Token.Basic

/-!
Contract: uniform declarations in stage source.

Owns: finding the declared uniforms and the defined macros of a source, and the
place where new declarations go.

Does not own: which uniforms a stage needs; that is `Lowering.Stage`.
-/

namespace WebShader.Lowering

open Text Reader

structure Uniform where
  typeName : String
  name : String
  deriving DecidableEq, Repr

def layoutQualifier : Reader Unit := do
  literal "layout"
  blanks
  literal "("
  let _ ← through ')'
  blanks

def typeAndName : Reader Uniform := do
  let typeName ← word
  someBlanks
  let name ← word
  return { typeName, name }

/-- A uniform declaration from its line start to its name. A precision word is
skipped if a type and a name follow it, and is the type itself if not. -/
def uniformDeclaration : Reader Uniform := do
  gap
  let _ ← Reader.optional layoutQualifier
  literal "uniform"
  someBlanks
  (do
    let _ ← literalIn precisionQualifiers
    someBlanks
    typeAndName) <|> typeAndName

def declaredUniforms (source : String) : List Uniform :=
  (findAll lineStart uniformDeclaration source).map Found.value

def defineHead : Reader String := do
  gap
  literal "#"
  gap
  literal "define"
  someGap
  word

def definedMacros (source : String) : List String :=
  (findAll lineStart defineHead source).map Found.value

/-- A definition of a macro by its own name, with the rest of its line if that is blank
or a comment. -/
def selfDefinition : Reader Unit := do
  let name ← defineHead
  someGap
  literal name
  gap
  let _ ← Reader.optional (do
    literal "//"
    Reader.run (· != '\n'))
  let _ ← Reader.optional (literal "\n")

def dropSelfDefinitions (source : String) : String :=
  replaceAll lineStart selfDefinition (fun _ => "") source

def isHeaderLine (line : String) : Bool :=
  let directive : Reader Unit := do
    literal "#"
    blanks
    let _ ← literalIn ["version", "extension"]
    wordEnd
  let precision : Reader Unit := do
    literal "precision"
    wordEnd
  (read? (blanks *> (directive <|> precision)) line.toList).isSome

/-- Inserts declaration lines after the leading header lines. -/
def insertDeclarations (source : String) (declarations : List String) : String :=
  if declarations.isEmpty then source
  else
    let sourceLines := lines source
    let header := sourceLines.takeWhile isHeaderLine
    unlines (header ++ declarations ++ sourceLines.dropWhile isHeaderLine)

end WebShader.Lowering
