import WebShader.Definition.Preamble

/-!
Contract: finding and replacing the declaration of a global in a source.

Owns: the form of a declaration line and its replacement at file scope.

Does not own: what the replacement says.
-/

namespace WebShader.Declaration

open Text Reader

def arraySize : Reader Unit := do
  let _ ← bracketed
  gap

/-- A declaration from its name on: array sizes, an initial value up to the
semicolon, and the end of the line if it follows. -/
def namedPart (target : GlobalVariable) : Reader (Option String) := do
  literal target.name
  gap
  repeated arraySize
  let initializer ← Reader.optional (do
    literal "="
    Reader.run (· != ';'))
  literal ";"
  gap
  let _ ← Reader.optional (literal "\n")
  return initializer

def typedPart (target : GlobalVariable) : Reader (Option String) := do
  literal target.typeName
  afterSomeGap (namedPart target)

/-- A declaration line of a global, with or without a precision; the answer is
the initial value. -/
def declarationLine (target : GlobalVariable) : Reader (Option String) :=
  afterGap <|
    (do
      let _ ← literalIn precisionQualifiers
      afterSomeGap (typedPart target)) <|> typedPart target

structure Replacement where
  text : String
  initializer : Option String
  deriving DecidableEq, Repr

private def trimLineEnds (text : String) : String :=
  String.ofList (trimEndWhere (· == '\n') text.toList)

/-- Replaces the first declaration line of a global outside all definitions. A
replacement ends its line only if the declaration did. -/
def replace? (source : String) (target : GlobalVariable) (replacement : String) :
    Except Fault (Option Replacement) := do
  let masks := Definition.spanSet (← Definition.ofSource source)
  let found := (findAll lineStart (declarationLine target) source).find? fun found =>
    !masks.contains found.start
  return found.map fun found =>
    let endsLine := (slice source found.start found.stop).toList.getLast? == some '\n'
    let text := if endsLine then replacement else trimLineEnds replacement
    { text := slice source 0 found.start ++ text ++
        String.ofList (source.toList.drop found.stop)
      initializer := found.value }

end WebShader.Declaration
