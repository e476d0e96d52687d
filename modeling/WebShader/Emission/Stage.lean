import WebShader.Emission.EntryPoint
import WebShader.Emission.Legacy
import WebShader.Options

/-!
Contract: the final text of a stage.

Owns: the header, the lines that the header replaces, the locations of values
between stages, and the order of the steps.

Does not own: the steps themselves.
-/

namespace WebShader.Emission

open Text Reader

def directiveLine (name : String) : Reader Unit := do
  gap
  literal "#"
  gap
  literal name
  wordEnd
  let _ ← Reader.run (· != '\n')
  let _ ← Reader.optional (literal "\n")

/-- A whole line that sets a default precision, with its end. -/
def precisionLine : Reader Unit := do
  gap
  literal "precision"
  someGap
  let _ ← word
  someGap
  let _ ← word
  gap
  literal ";"
  gap
  let _ ← Reader.optional (literal "\n")

def dropLines (line : Reader Unit) (source : String) : String :=
  replaceAll lineStart line (fun _ => "") source

def extensionLines (source : String) : List String :=
  (findAll lineStart (directiveLine "extension") source).map fun found =>
    trim (slice source found.start found.stop)

def dropHeaderLines (source : String) : String :=
  dropLines precisionLine
    (dropLines (directiveLine "pragma")
      (dropLines (directiveLine "extension")
        (dropLines (directiveLine "version") source)))

/-- The header: version, extensions each once, and default precisions. -/
def header (options : Options) (extensions : List String) : String :=
  let version := if options.modern then ["#version 300 es"] else []
  let precisions :=
    if options.modern then
      ["precision " ++ options.floatPrecision ++ " float;",
       "precision " ++ options.intPrecision ++ " int;"]
    else ["precision " ++ options.legacyFloatPrecision ++ " float;"]
  unlines (version ++ extensions.eraseDups ++ precisions) ++ "\n\n"

/-- A location in front of a value that goes to, or comes from, the other stage. -/
def sharedLocation (stage : Stage) : Reader Unit := do
  literal "layout"
  blanks
  literal "("
  blanks
  literal "location"
  blanks
  literal "="
  blanks
  let _ ← someRun isDigit
  blanks
  literal ")"
  blanks
  ahead (do
    interpolation
    literal (if stage == .vertex then "out" else "in")
    wordEnd)

/-- Values between stages are matched by name, so their locations go. -/
def dropSharedLocations (stage : Stage) (source : String) : String :=
  replaceAll anywhere (sharedLocation stage) (fun _ => "") source

/-- Line ends, three or more. -/
def manyLineEnds : Reader Unit := do
  literal "\n\n\n"
  let _ ← run (· == '\n')

/-- At most one empty line in a row, and none at either end. -/
def tidyLines (source : String) : String :=
  let tidied := replaceAll anywhere manyLineEnds (fun _ => "\n\n") source
  String.ofList (trimWhere (· == '\n') tidied.toList)

def emit (options : Options) (indent : Int) (globals : List GlobalVariable)
    (program : StageProgram) : ExceptT Fault Noted String := do
  let extensions := extensionLines program.source
  let body := dropSharedLocations program.stage (dropHeaderLines program.source)
  let hoisted ← (hoistInitializers globals body : Except Fault Hoisted)
  let entry := program.entry ++ hoisted.statements
  let injected ← injectMain indent entry program.exit hoisted.source
  let final ← if options.modern then pure injected else toLegacy program.stage injected
  return header options extensions ++ tidyLines final ++ "\n"

end WebShader.Emission
