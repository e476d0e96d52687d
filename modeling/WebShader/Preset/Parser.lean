import WebShader.Decimal.Reader
import WebShader.Noted
import WebShader.Preset.Basic
import WebShader.Preset.Settings
import WebShader.Text.Lowercase

/-!
Contract: presets from text.

Owns: the keys of passes, textures and parameters, and the defaults of what is
missing or cannot be read.

Does not own: the settings themselves; those are `Preset.Settings`.
-/

namespace WebShader.Preset

open Text

/-! Values. -/

/-- A flag is set by two words, in any case; everything else clears it. -/
def flagOf (value : String) : Bool :=
  let word := lower value
  word == "true" || word == "1"

def scaleTypeOf (value : String) : ScaleType :=
  match lower value with
  | "viewport" => .viewport
  | "absolute" => .absolute
  | _ => .source

def wrapModeOf (value : String) : WrapMode :=
  match lower value with
  | "repeat" => .tiled
  | "mirrored_repeat" => .mirrored
  | _ => .clampToEdge

/-- An integer, if there is one; a text that is none is reported. -/
def integerOf? (value : Option String) : Noted (Option Int) :=
  match value with
  | none => pure none
  | some text =>
    match Decimal.readInt? text with
    | some number => pure (some number)
    | none => do
        Noted.note (.expectedInteger text)
        return none

def namesOf (value : String) : List String :=
  ((splitAtEach ';' value.toList).map fun item => String.ofList (trimWhere isBlank item)).filter
    fun name => !name.isEmpty

def namesAt (settings : Settings) (key : String) : List String :=
  namesOf ((settings.lookup key).getD "")

/-! Passes. -/

/-- The value of a key for one pass; an empty one counts as missing. -/
def passValue? (settings : Settings) (key : String) (index : Nat) : Option String :=
  (settings.lookup (key ++ toString index)).filter fun value => !value.isEmpty

/-- The pass with a number, if its shader is given. -/
def passAt? (settings : Settings) (index : Nat) : Noted (Option ShaderPass) :=
  let value? (key : String) : Option String := passValue? settings key index
  match value? "shader" with
  | none => pure none
  | some shader => do
      let frameCountMod ← integerOf? (value? "frame_count_mod")
      return some {
        shader
        filterLinear := ((value? "filter_linear").map flagOf).getD true
        scaleType := scaleTypeOf ((value? "scale_type").getD "source")
        scale := (value? "scale").bind Decimal.readFloat?
        scaleX := (value? "scale_x").bind Decimal.readFloat?
        scaleY := (value? "scale_y").bind Decimal.readFloat?
        aliasName := value? "alias"
        srgbFramebuffer := (value? "srgb_framebuffer").map flagOf
        floatFramebuffer := (value? "float_framebuffer").map flagOf
        format := value? "format"
        mipmapInput := (value? "mipmap_input").map flagOf
        wrapMode := (value? "wrap_mode").map wrapModeOf
        frameCountMod }

/-- The passes with these numbers; one without a shader is reported and left out. -/
def passesAt (settings : Settings) (count : Int) : List Nat → Noted (List ShaderPass)
  | [] => pure []
  | index :: rest => do
      match ← passAt? settings index with
      | some pass => return pass :: (← passesAt settings count rest)
      | none =>
        Noted.note (.missingPass count index)
        passesAt settings count rest

/-! Textures and parameters. -/

/-- The texture of a name, if its path is given. -/
def textureOf? (settings : Settings) (name : String) : Option PresetTexture :=
  let value? (ending : String) : Option String := settings.lookup (name ++ ending)
  (value? "").bind fun path =>
    if path.isEmpty then none
    else
      some {
        name
        path
        linear := ((value? "_linear").map flagOf).getD true
        wrapMode := ((value? "_wrap_mode").map wrapModeOf).getD .clampToEdge
        mipmap := ((value? "_mipmap").map flagOf).getD false }

def texturesOf (settings : Settings) : List String → Noted (List PresetTexture)
  | [] => pure []
  | name :: rest =>
    match textureOf? settings name with
    | some texture => do
        return texture :: (← texturesOf settings rest)
    | none => do
        Noted.note (.textureWithoutPath name)
        texturesOf settings rest

/-- The values of parameters; a name without a setting is no parameter. -/
def parametersOf (settings : Settings) : List String → Noted (List ParameterValue)
  | [] => pure []
  | name :: rest =>
    match settings.lookup name with
    | none => parametersOf settings rest
    | some text =>
      match Decimal.readFloat? text with
      | some value => do
          return ⟨name, value⟩ :: (← parametersOf settings rest)
      | none => do
          Noted.note (.overrideWithoutNumber name text)
          parametersOf settings rest

def parse (content path : String) : Noted Preset := do
  let settings := Settings.ofText content
  let count := (← integerOf? (settings.lookup "shaders")).getD 0
  let passes ← passesAt settings count (List.range count.toNat)
  let textures ← texturesOf settings (namesAt settings "textures")
  let parameters ← parametersOf settings (namesAt settings "parameters")
  return { passes, textures, parameters, reference := settings.lookup referenceKey, path }

end WebShader.Preset
