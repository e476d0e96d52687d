import WebShader.Proofs.Preset.Slots

/-!
Contract: a preset that is written and read again is the same preset.

Owns: the reading of passes, textures and parameters from the settings that were
written for them.

The preset comes back in every field, and nothing is reported on the way.
-/

namespace WebShader.Preset

open List Text

variable {settings : Settings} {word : String} (scaleType : ScaleType) (wrapMode : WrapMode)

/-! Values. -/

theorem readValue_flag (flag : Bool) : readValue (flagText flag) = flagText flag := by
  cases flag <;> decide

theorem flagOf_flagText (flag : Bool) : flagOf (flagText flag) = flag := by
  cases flag <;> decide +kernel

theorem readValue_scaleType : readValue scaleType.label = scaleType.label := by
  cases scaleType <;> decide

theorem scaleTypeOf_label : scaleTypeOf scaleType.label = scaleType := by
  cases scaleType <;> decide +kernel

theorem readValue_wrapMode : readValue wrapMode.label = wrapMode.label := by
  cases wrapMode <;> decide

theorem wrapModeOf_label : wrapModeOf wrapMode.label = wrapMode := by
  cases wrapMode <;> decide +kernel

theorem flagText_present (flag : Bool) : flagText flag ≠ "" := by
  cases flag <;> decide

theorem scaleType_present : scaleType.label ≠ "" := by
  cases scaleType <;> decide

theorem wrapMode_present : wrapMode.label ≠ "" := by
  cases wrapMode <;> decide

theorem integerOf?_toString {number : Int} (fits : number.natAbs < 10 ^ Decimal.maxIntegerDigits) :
    integerOf? (some (toString number)) = pure (some number) := by
  rw [integerOf?, Decimal.readInt?_toString fits]

/-! Passes. -/

section Pass

variable {settings : Settings} {index : Nat} {pass : ShaderPass}
  (lookups : ∀ slot ∈ passSlots index pass, settings.lookup slot.1 = slot.2.map readValue)

include lookups

/-- A key of a pass without a text has no value. -/
theorem passValue?_none (mem : (word, none) ∈ passTexts pass) :
    passValue? settings word index = none := by
  have found := lookups (word ++ toString index, none) (mem_map.mpr ⟨_, mem, rfl⟩)
  rw [passValue?, found]
  rfl

/-- A key of a pass has the value that its text stands for. -/
theorem passValue?_some {text value : String} (mem : (word, some text) ∈ passTexts pass)
    (reads : readValue text = value) (present : value ≠ "") :
    passValue? settings word index = some value := by
  have found := lookups (word ++ toString index, some text) (mem_map.mpr ⟨_, mem, rfl⟩)
  rw [passValue?, found, Option.map_some, reads, Option.filter_some, if_pos (by simpa using present)]

/-- A setting that may be left out has the value that its text stands for. -/
theorem passValue?_written {α : Type} {value : Option α} {write plain : α → String}
    (mem : (word, value.map write) ∈ optionalSettings pass)
    (reads : ∀ found, value = some found → readValue (write found) = plain found)
    (present : ∀ found, value = some found → plain found ≠ "") :
    passValue? settings word index = value.map plain := by
  have listed : (word, value.map write) ∈ passTexts pass := mem_append_right _ mem
  cases value with
  | none => exact passValue?_none lookups listed
  | some found => exact passValue?_some lookups listed (reads found rfl) (present found rfl)

theorem passFlag?_written {flag : Option Bool}
    (mem : (word, flag.map flagText) ∈ optionalSettings pass) :
    (passValue? settings word index).map flagOf = flag := by
  rw [passValue?_written lookups mem (fun set _ => readValue_flag set)
    (fun set _ => flagText_present set)]
  cases flag with
  | none => rfl
  | some set => exact congrArg some (flagOf_flagText set)

section Written

variable (writable : WritablePass pass)
include writable

theorem passScale?_written {scale : Option Float}
    (mem : (word, scale.map Decimal.render) ∈ optionalSettings pass)
    (known : scale ∈ [pass.scale, pass.scaleX, pass.scaleY]) :
    (passValue? settings word index).bind Decimal.readFloat? = scale := by
  have readBack : ∀ value, scale = some value →
      Decimal.readFloat? (Decimal.render value) = some value :=
    fun value found => writable.scales value (found ▸ known)
  rw [passValue?_written lookups mem (fun value _ => bare_numeric (Decimal.isNumeric_render value))
    (fun value found => render_ne_empty (readBack value found))]
  cases scale with
  | none => rfl
  | some value => grind

theorem passAlias?_written : passValue? settings "alias" index = pass.aliasName := by
  have kept : pass.aliasName.filter (fun name => !name.isEmpty) = pass.aliasName := by
    cases found : pass.aliasName with
    | none => rfl
    | some name =>
      have present := (writable.aliasName name found).1
      simp_all
  have mem : ("alias", pass.aliasName.map quoted) ∈ optionalSettings pass := by
    rw [← kept]
    simp [optionalSettings]
  rw [passValue?_written lookups mem (fun name _ => readValue_quoted name)
    (fun name found => (writable.aliasName name found).1), Option.map_id']

theorem passFormat?_written : passValue? settings "format" index = pass.format := by
  have mem : ("format", pass.format.map id) ∈ optionalSettings pass := by
    simp [optionalSettings]
  rw [passValue?_written lookups mem
    (fun text found => readValue_bare (writable.format text found).2.2.2)
    (fun text found => (writable.format text found).1), Option.map_id, id]

theorem passFrameCount?_written :
    integerOf? (passValue? settings "frame_count_mod" index) = pure pass.frameCountMod := by
  have mem : ("frame_count_mod", pass.frameCountMod.map toString) ∈ optionalSettings pass := by
    simp [optionalSettings]
  rw [passValue?_written lookups mem
    (fun count _ => bare_numeric (numeric_toString count)) (fun count _ => toString_ne_empty count)]
  cases found : pass.frameCountMod with
  | none => rfl
  | some count => exact integerOf?_toString (writable.frameCountMod count found)

end Written

theorem passWrapMode?_written :
    (passValue? settings "wrap_mode" index).map wrapModeOf = pass.wrapMode := by
  have mem : ("wrap_mode", pass.wrapMode.map WrapMode.label) ∈ optionalSettings pass := by
    simp [optionalSettings]
  rw [passValue?_written lookups mem (fun mode _ => readValue_wrapMode mode)
    (fun mode _ => wrapMode_present mode)]
  cases pass.wrapMode with
  | none => rfl
  | some mode => exact congrArg some (wrapModeOf_label mode)

theorem passAt?_written (writable : WritablePass pass) :
    passAt? settings index = pure (some pass) := by
  have shader : passValue? settings "shader" index = some pass.shader :=
    passValue?_some lookups (by simp [passTexts]) (readValue_quoted _) writable.shader.1
  have filterLinear : passValue? settings "filter_linear" index =
      some (flagText pass.filterLinear) :=
    passValue?_some lookups (by simp [passTexts]) (readValue_flag _) (flagText_present _)
  have scaleType : passValue? settings "scale_type" index = some pass.scaleType.label :=
    passValue?_some lookups (by simp [passTexts]) (readValue_scaleType _) (scaleType_present _)
  have scale : (passValue? settings "scale" index).bind Decimal.readFloat? = pass.scale :=
    passScale?_written lookups writable (by simp [optionalSettings]) (by simp)
  have scaleX : (passValue? settings "scale_x" index).bind Decimal.readFloat? = pass.scaleX :=
    passScale?_written lookups writable (by simp [optionalSettings]) (by simp)
  have scaleY : (passValue? settings "scale_y" index).bind Decimal.readFloat? = pass.scaleY :=
    passScale?_written lookups writable (by simp [optionalSettings]) (by simp)
  have srgb : (passValue? settings "srgb_framebuffer" index).map flagOf = pass.srgbFramebuffer :=
    passFlag?_written lookups (by simp [optionalSettings])
  have float : (passValue? settings "float_framebuffer" index).map flagOf = pass.floatFramebuffer :=
    passFlag?_written lookups (by simp [optionalSettings])
  have mipmap : (passValue? settings "mipmap_input" index).map flagOf = pass.mipmapInput :=
    passFlag?_written lookups (by simp [optionalSettings])
  rw [passAt?]
  simp only [shader, filterLinear, scaleType, passAlias?_written lookups writable,
    passFormat?_written lookups writable, passWrapMode?_written lookups,
    passFrameCount?_written lookups writable, Option.map_some, Option.getD_some, flagOf_flagText,
    scaleTypeOf_label]
  rw [scale, scaleX, scaleY, srgb, float, mipmap]
  rfl

end Pass

theorem passesAt_written {count : Int} {entries : List (ShaderPass × Nat)}
    (each : ∀ entry ∈ entries, passAt? settings entry.2 = pure (some entry.1)) :
    passesAt settings count (entries.map Prod.snd) = pure (entries.map Prod.fst) := by
  induction entries with
  | nil => rfl
  | cons entry rest ih => grind [passesAt]

/-! Textures and parameters. -/

theorem namesOf_intercalate {names : List String} (each : ∀ name ∈ names, isSettingName name) :
    namesOf (String.intercalate ";" names) = names := by
  have kept : ∀ name ∈ names, String.ofList (trimWhere isBlank name.toList) = name ∧
      (!name.isEmpty) := by
    intro name mem
    have key := (isSettingName_key (each name mem)).1.stands
    rw [key.trimmed, String.ofList_toList]
    exact ⟨rfl, by simpa using key.present⟩
  cases names with
  | nil => rfl
  | cons first others =>
    have same : (first :: others).map
        ((fun item => String.ofList (trimWhere isBlank item)) ∘ String.toList) =
          first :: others :=
      (map_congr_left fun name mem => (kept name mem).1).trans (map_id' _)
    rw [namesOf, splitAtEach_intercalate rfl (cons_ne_nil _ _) fun name mem =>
      (isSettingName_key (each name mem)).2, map_map, same, filter_eq_self]
    exact fun name mem => (kept name mem).2

theorem namesAt_written {key : String} {names : List String}
    (found : settings.lookup key = (namesSlot key names).2.map readValue)
    (each : ∀ name ∈ names, isSettingName name) : namesAt settings key = names := by
  rw [namesAt, found]
  cases names with
  | nil => rfl
  | cons first others =>
    show namesOf (readValue (quoted (String.intercalate ";" (first :: others)))) = _
    rw [readValue_quoted, namesOf_intercalate each]

theorem textureOf?_written {texture : PresetTexture} (present : texture.path ≠ "")
    (lookups : ∀ slot ∈ textureSlots texture, settings.lookup slot.1 = slot.2.map readValue) :
    textureOf? settings texture.name = some texture := by
  have path := lookups (texture.name ++ "", some (quoted texture.path)) (by simp [textureSlots])
  have linear := lookups (texture.name ++ "_linear", some (flagText texture.linear))
    (by simp [textureSlots])
  have wrapMode := lookups (texture.name ++ "_wrap_mode", some texture.wrapMode.label)
    (by simp [textureSlots])
  have mipmap := lookups (texture.name ++ "_mipmap", some (flagText texture.mipmap))
    (by simp [textureSlots])
  simp_all [readValue_quoted, readValue_flag, readValue_wrapMode, textureOf?, flagOf_flagText, wrapModeOf_label]

theorem texturesOf_written {textures : List PresetTexture}
    (each : ∀ texture ∈ textures, textureOf? settings texture.name = some texture) :
    texturesOf settings (textures.map PresetTexture.name) = pure textures := by
  induction textures with
  | nil => rfl
  | cons texture rest ih => grind [texturesOf]

theorem parametersOf_written {params : List ParameterValue} (each : ∀ parameter ∈ params,
      settings.lookup parameter.name = some (Decimal.render parameter.value) ∧
      Decimal.readFloat? (Decimal.render parameter.value) = some parameter.value) :
    parametersOf settings (params.map ParameterValue.name) = pure params := by
  induction params with
  | nil => rfl
  | cons parameter rest ih => simp_all [parametersOf]

/-! The whole preset. -/

section Preset

variable {preset : Preset} {settings : Settings} (writable : Writable preset)
  (lookups : ∀ slot ∈ presetSlots preset, settings.lookup slot.1 = slot.2.map readValue)

include writable lookups

theorem count_written :
    integerOf? (settings.lookup "shaders") = pure (some (preset.passes.length : Int)) := by
  have found := lookups ("shaders", some (toString (preset.passes.length : Int)))
    (mem_append_left _ (mem_append_left _ mem_cons_self))
  rw [found, Option.map_some, bare_numeric (numeric_toString _),
    integerOf?_toString (by simpa using writable.count)]

theorem passes_written :
    passesAt settings preset.passes.length (List.range preset.passes.length) =
      pure preset.passes := by
  have each : passesAt settings preset.passes.length (preset.passes.zipIdx.map Prod.snd) =
      pure (preset.passes.zipIdx.map Prod.fst) :=
    passesAt_written fun entry mem => by
      refine passAt?_written (fun slot listed => lookups slot ?_)
        (writable.passes entry.1 (fst_mem_of_mem_zipIdx mem))
      exact mem_append_left _ (mem_append_left _ (mem_cons_of_mem _
        (mem_flatMap.mpr ⟨entry, mem, listed⟩)))
  rwa [zipIdx_map_snd, zipIdx_map_fst, ← range_eq_range'] at each

theorem textures_written :
    texturesOf settings (namesAt settings "textures") = pure preset.textures := by
  have listed : ∀ slot ∈ namesSlot "textures" (preset.textures.map PresetTexture.name) ::
      preset.textures.flatMap textureSlots, settings.lookup slot.1 = slot.2.map readValue :=
    fun slot mem => lookups slot (mem_append_left _ (mem_append_right _ mem))
  have names : namesAt settings "textures" = preset.textures.map PresetTexture.name := by
    refine namesAt_written (listed _ mem_cons_self) fun name mem => ?_
    obtain ⟨texture, isTexture, rfl⟩ := mem_map.mp mem
    exact (writable.textures texture isTexture).1
  rw [names]
  refine texturesOf_written fun texture mem => ?_
  refine textureOf?_written (writable.textures texture mem).2.1 fun slot inTexture => ?_
  grind

theorem parameters_written :
    parametersOf settings (namesAt settings "parameters") = pure preset.parameters := by
  have listed : ∀ slot ∈ namesSlot "parameters" (preset.parameters.map ParameterValue.name) ::
      parameterSlots preset.parameters, settings.lookup slot.1 = slot.2.map readValue :=
    fun slot mem => lookups slot (mem_append_right _ mem)
  have names : namesAt settings "parameters" = preset.parameters.map ParameterValue.name := by
    refine namesAt_written (listed _ mem_cons_self) fun name mem => ?_
    obtain ⟨parameter, isParameter, rfl⟩ := mem_map.mp mem
    exact (writable.parameters parameter isParameter).1
  rw [names]
  refine parametersOf_written fun parameter mem => ?_
  refine ⟨?_, (writable.parameters parameter mem).2⟩
  have found := listed (parameter.name, some (Decimal.render parameter.value))
    (mem_cons_of_mem _ (mem_map.mpr ⟨parameter, mem, rfl⟩))
  rw [found, Option.map_some, bare_numeric (Decimal.isNumeric_render parameter.value)]

end Preset

/-- A preset that can be written is read back from its text in every field, and
nothing is reported. -/
theorem parse_render {preset : Preset} (writable : Writable preset) :
    parse (render preset) preset.path = pure preset := by
  have lookups : ∀ slot ∈ presetSlots preset,
      (Settings.ofText (render preset)).lookup slot.1 = slot.2.map readValue :=
    fun _ member => lookup_render writable member
  rw [parse]
  simp only [count_written writable lookups, pure_bind, Option.getD_some, Int.toNat_natCast,
    passes_written writable lookups, textures_written writable lookups,
    parameters_written writable lookups, lookup_reference writable]

/-- A preset with quotes, slashes and blanks in its texts and with settings of
every kind. -/
def samplePreset : Preset where
  passes := [
    { shader := " a/b = \"c\" ", scale := some 2.5, scaleX := some (-0.125), aliasName := some "\"",
      format := some "\"", wrapMode := some .mirrored, frameCountMod := some (-30) },
    { shader := "x", filterLinear := false, scaleType := .absolute, mipmapInput := some true }]
  textures := [{ name := "\"lut\"/", path := "/l.png ", linear := false, mipmap := true }]
  parameters := [⟨"shader2", 1e300⟩, ⟨"a b", 0.1⟩]
  reference := some "../#base//x "
  path := "presets/crt.slangp"

theorem parse_render_sample : Writable samplePreset ∧
    parse (render samplePreset) "presets/crt.slangp" = pure samplePreset := by
  have first : WritablePass samplePreset.passes[0] := {
    shader := by decide
    aliasName := by rintro name ⟨⟩; decide
    format := by
      rintro text ⟨⟩
      refine ⟨by decide, by decide, by decide, fun inner same => ?_⟩
      have lengths := congrArg String.length same
      simp [quoted] at lengths
    scales := by
      intro scale listed
      rcases List.mem_cons.mp listed with ⟨⟨⟩⟩ | later
      · decide +kernel
      · rcases List.mem_cons.mp later with ⟨⟨⟩⟩ | last
        · decide +kernel
        · cases List.mem_singleton.mp last
    frameCountMod := by rintro count ⟨⟩; decide +kernel }
  have second : WritablePass samplePreset.passes[1] := {
    shader := by decide
    aliasName := by rintro name ⟨⟩
    format := by rintro text ⟨⟩
    scales := by
      intro scale listed
      simp [samplePreset] at listed
    frameCountMod := by rintro count ⟨⟩ }
  have writable : Writable samplePreset := {
    reference := by rintro path ⟨⟩; decide
    passes := by
      intro pass member
      rcases List.mem_cons.mp member with rfl | later
      · exact first
      · obtain rfl := List.mem_singleton.mp later
        exact second
    textures := by decide
    parameters := by
      intro parameter member
      rcases List.mem_cons.mp member with rfl | later
      · exact ⟨by decide, by decide +kernel⟩
      · obtain rfl := List.mem_singleton.mp later
        exact ⟨by decide, by decide +kernel⟩
    distinct := by decide +kernel
    unreserved := by decide +kernel
    count := by decide +kernel }
  exact ⟨writable, parse_render writable⟩

end WebShader.Preset
