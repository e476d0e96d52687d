import WebShader.Coercion.Basic
import WebShader.Conditional.Resolution
import WebShader.Emission.Stage
import WebShader.Lowering.Stage
import WebShader.Sharing.Resolution
import WebShader.Stage.Split

/-!
Contract: compiling one shader.

Owns: the order of the passes, and the compiled shader.

Does not own: includes; the source has none left.
-/

namespace WebShader

open Text Compilation

/-- A compiled shader: the two stages, and what a program has to provide. -/
structure Shader where
  vertex : String
  fragment : String
  parameters : List Parameter
  uniforms : List String
  samplers : List String
  name : Option String
  format : Option String

namespace Shader

open Compilation

/-- The parts of a stage that are not blank, with an empty line between them. -/
def assemble (parts : List String) : String :=
  String.intercalate "\n\n" (parts.filter fun part => !isAllBlank part) ++ "\n"

def coerceStatements (context : String) : List String → Noted (List String)
  | [] => pure []
  | statement :: rest => do
      let coerced ← Coercion.coerce context statement
      return coerced :: (← coerceStatements context rest)

/-- Coerces a stage, and then its statements in the context of the stage. -/
def coerceStage (program : StageProgram) : Noted StageProgram := do
  let source ← Coercion.coerce "" program.source
  let entry ← coerceStatements source program.entry
  let exit ← coerceStatements source program.exit
  return { program with source, entry, exit }

def isSampler (uniform : Lowering.Uniform) : Bool :=
  ["sampler", "isampler", "usampler"].any fun start =>
    start.toList.isPrefixOf uniform.typeName.toList

def namesWhere (wanted : Lowering.Uniform → Bool) (uniforms : List Lowering.Uniform) :
    List String :=
  ((uniforms.filter wanted).map Lowering.Uniform.name).eraseDups

def statementIndent : Int := 4

def compile (options : Options) (source : String) : Compilation Shader := do
  let (text, _) ← ofNoted (Conditional.resolve options.predefinedMacros source)
  let annotations ← ofNoted (Annotations.ofSource text)
  let bindings ← ofNoted (Binding.table text)
  let claimed := annotations.claimedNames ++ bindingMemberNames bindings
  let preamble ← ofChecked (Preamble.ofSource text claimed)
  let split ← ofChecked (StageSplit.ofSource options text)
  let stageOf (stage : Stage) (body : String) : StageProgram :=
    ⟨stage, assemble [split.preamble, preamble.render, body], [], []⟩
  let context : Lowering.Context :=
    { bindings
      parameterNames := annotations.parameters.map Parameter.name
      globals := preamble.globals
      parameterPrefix := options.parameterPrefix }
  let vertex ← ofNoted
    (Lowering.lowerStage context (stageOf .vertex split.vertex))
  let fragment ← ofNoted
    (Lowering.lowerStage context (stageOf .fragment split.fragment))
  let resolved ← Sharing.resolve options (preamble.constNames ++ preamble.macroNames)
    preamble.globals ⟨vertex, fragment⟩
  let vertex ← ofNoted (coerceStage resolved.stages.vertex)
  let fragment ← ofNoted (coerceStage resolved.stages.fragment)
  let vertexText ← ofChecked
    (Emission.emit options statementIndent resolved.globals vertex)
  let fragmentText ← ofChecked
    (Emission.emit options statementIndent resolved.globals fragment)
  let uniforms := Lowering.declaredUniforms vertexText ++ Lowering.declaredUniforms fragmentText
  modifyThe Session fun session => { session with compiledCount := session.compiledCount + 1 }
  return {
    vertex := vertexText
    fragment := fragmentText
    parameters := annotations.parameters
    uniforms := namesWhere (!isSampler ·) uniforms
    samplers := namesWhere isSampler uniforms
    name := annotations.name
    format := annotations.format }

end Shader

end WebShader
