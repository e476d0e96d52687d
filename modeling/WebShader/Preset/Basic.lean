import WebShader.Assoc

/-!
Contract: presets, which chain shaders to a pipeline.

Owns: the parts of a preset, and the words for their settings.

Does not own: the text of a preset; that is `Preset.Parser` and `Preset.Printer`.

Paths in a preset are relative to the preset's own.
-/

namespace WebShader

inductive ScaleType where
  | source
  | viewport
  | absolute
  deriving DecidableEq, Repr

def ScaleType.label : ScaleType → String
  | .source => "source"
  | .viewport => "viewport"
  | .absolute => "absolute"

inductive WrapMode where
  | clampToEdge
  | tiled
  | mirrored
  deriving DecidableEq, Repr

def WrapMode.label : WrapMode → String
  | .clampToEdge => "clamp_to_edge"
  | .tiled => "repeat"
  | .mirrored => "mirrored_repeat"

structure ShaderPass where
  shader : String
  filterLinear : Bool := true
  scaleType : ScaleType := .source
  scale : Option Float := none
  scaleX : Option Float := none
  scaleY : Option Float := none
  aliasName : Option String := none
  srgbFramebuffer : Option Bool := none
  floatFramebuffer : Option Bool := none
  format : Option String := none
  mipmapInput : Option Bool := none
  wrapMode : Option WrapMode := none
  frameCountMod : Option Int := none

structure PresetTexture where
  name : String
  path : String
  linear : Bool := true
  wrapMode : WrapMode := .clampToEdge
  mipmap : Bool := false
  deriving DecidableEq, Repr

structure ParameterValue where
  name : String
  value : Float

structure Preset where
  passes : List ShaderPass := []
  textures : List PresetTexture := []
  parameters : List ParameterValue := []
  reference : Option String := none
  path : String := ""

/-- The values by parameter; of two for one parameter the last counts. -/
def Preset.overrides (preset : Preset) : List (String × Float) :=
  preset.parameters.foldl (fun entries entry => Assoc.put entry.name entry.value entries) []

end WebShader
