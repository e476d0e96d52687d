import WebShader.Compiler.Shader
import WebShader.Include.Expansion
import WebShader.Preset.Parser

/-!
Contract: compiling shaders with includes, and every pass of a preset.

Owns: the use of files, and the parameter values that a preset sets.

Does not own: the compilation of a single source.

The passes of a preset share one session.
-/

namespace WebShader

open Include (Files)

namespace Shader

def compileWithIncludes (options : Options) (files : Files) (source path : String) :
    Compilation Shader := do
  let predefined := options.predefinedMacros.map (·.1)
  let expanding := Include.expand ⟨files, options.maxIncludeDepth⟩ source path
  let expanded ← Compilation.ofChecked
    (ExceptT.mk ((·.1) <$> Include.runExpansion predefined expanding))
  compile options expanded

def withOverrides (overrides : List (String × Float)) (shader : Shader) : Shader :=
  { shader with
    parameters := shader.parameters.map fun parameter =>
      { parameter with initial := (overrides.lookup parameter.name).getD parameter.initial } }

end Shader

structure Pipeline where
  preset : Preset
  shaders : List Shader

namespace Pipeline

def compilePass (options : Options) (files : Files) (preset : Preset) (pass : ShaderPass) :
    Compilation Shader := do
  let path := Path.follow preset.path pass.shader
  let source ← (files path : Except Fault String)
  let shader ← Shader.compileWithIncludes options files source path
  return shader.withOverrides preset.overrides

def compilePasses (options : Options) (files : Files) (preset : Preset) :
    List ShaderPass → Compilation (List Shader)
  | [] => pure []
  | pass :: rest => do
      let shader ← compilePass options files preset pass
      return shader :: (← compilePasses options files preset rest)

def noteReference (preset : Preset) : Noted Unit :=
  match preset.reference with
  | some reference =>
    Noted.noteIf (!reference.isEmpty) (.referenceNotFollowed preset.path reference)
  | none => pure ()

def compile (options : Options) (files : Files) (content path : String) :
    Compilation Pipeline := do
  let preset ← Compilation.ofNoted (Preset.parse content path)
  Compilation.ofNoted (noteReference preset)
  return { preset, shaders := ← compilePasses options files preset preset.passes }

end Pipeline

end WebShader
