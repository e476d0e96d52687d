import WebShader.Decimal.Shortest
import WebShader.Preset.Basic

/-!
Contract: presets as text.

Owns: the lines of a preset in their order.

Does not own: reading them back; that is `Preset.Parser`.

Settings of a pass that are not given are left out.
-/

namespace WebShader.Preset

open Text

def flagText (flag : Bool) : String :=
  if flag then "true" else "false"

def quoted (text : String) : String :=
  "\"" ++ text ++ "\""

def settingLine (key value : String) : String :=
  key ++ " = " ++ value

def passLine (index : Nat) (key value : String) : String :=
  settingLine (key ++ toString index) value

def optionalSettings (pass : ShaderPass) : List (String × Option String) :=
  [("scale", pass.scale.map Decimal.render),
   ("scale_x", pass.scaleX.map Decimal.render),
   ("scale_y", pass.scaleY.map Decimal.render),
   ("alias", (pass.aliasName.filter fun name => !name.isEmpty).map quoted),
   ("srgb_framebuffer", pass.srgbFramebuffer.map flagText),
   ("float_framebuffer", pass.floatFramebuffer.map flagText),
   ("format", pass.format),
   ("mipmap_input", pass.mipmapInput.map flagText),
   ("wrap_mode", pass.wrapMode.map WrapMode.label),
   ("frame_count_mod", pass.frameCountMod.map toString)]

def passLines (index : Nat) (pass : ShaderPass) : List String :=
  [passLine index "shader" (quoted pass.shader),
   passLine index "filter_linear" (flagText pass.filterLinear),
   passLine index "scale_type" pass.scaleType.label] ++
  ((optionalSettings pass).filterMap fun setting =>
    setting.2.map (passLine index setting.1)) ++
  [""]

def textureLines (texture : PresetTexture) : List String :=
  [settingLine texture.name (quoted texture.path),
   settingLine (texture.name ++ "_linear") (flagText texture.linear),
   settingLine (texture.name ++ "_wrap_mode") texture.wrapMode.label,
   settingLine (texture.name ++ "_mipmap") (flagText texture.mipmap),
   ""]

def listLines (key : String) (names : List String) : List String :=
  [settingLine key (quoted (String.intercalate ";" names)), ""]

def referenceLines (reference : Option String) : List String :=
  match reference with
  | some path => if path.isEmpty then [] else ["#reference " ++ quoted path, ""]
  | none => []

def textureSection (textures : List PresetTexture) : List String :=
  if textures.isEmpty then []
  else listLines "textures" (textures.map PresetTexture.name) ++ textures.flatMap textureLines

def parameterSection (parameters : List ParameterValue) : List String :=
  if parameters.isEmpty then []
  else
    listLines "parameters" (parameters.map ParameterValue.name) ++
      (parameters.map fun parameter =>
        settingLine parameter.name (Decimal.render parameter.value)) ++
      [""]

def render (preset : Preset) : String :=
  unlines (referenceLines preset.reference ++
    [settingLine "shaders" (toString preset.passes.length), ""] ++
    (preset.passes.zipIdx.flatMap fun entry => passLines entry.2 entry.1) ++
    textureSection preset.textures ++
    parameterSection preset.parameters)

end WebShader.Preset
