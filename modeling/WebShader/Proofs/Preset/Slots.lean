import WebShader.Proofs.Assoc
import WebShader.Proofs.Decimal.Digits
import WebShader.Proofs.Preset.Line

/-!
Contract: the settings of a written preset are found again by their keys.

Owns: the settings that a preset writes, with those that it leaves out, and the
presets that are written without loss.

A setting is found again if no later line sets its key. Keys of passes differ
from each other by their words and numbers; the names of textures and
parameters are free, so they have to differ from all other keys.
-/

namespace WebShader.Preset

open List Text

variable {names : List String} {texture : PresetTexture} {pass : ShaderPass}
  {key text wanted word : String}

/-! Tables of settings. -/

/-- Keys with the texts written for them; a key without a text has no line. -/
abbrev Slots := List (String × Option String)

variable {preset : Preset} {slots : Slots} {slot : String × Option String}

def slotLines (slots : Slots) : List String :=
  slots.filterMap fun slot => slot.2.map (settingLine slot.1)

def addSlot (settings : Settings) (slot : String × Option String) : Settings :=
  match slot.2 with
  | none => settings
  | some text => Assoc.put slot.1 (readValue text) settings

theorem lookup_addSlot_other (other : wanted ≠ slot.1) (settings : Settings) :
    (addSlot settings slot).lookup wanted = settings.lookup wanted := by
  unfold addSlot
  split
  · rfl
  · rw [Assoc.lookup_put, beq_false_of_ne other]
    rfl

theorem lookup_slots_other (absent : wanted ∉ slots.map Prod.fst) (settings : Settings) :
    (slots.foldl addSlot settings).lookup wanted = settings.lookup wanted := by
  induction slots generalizing settings with
  | nil => rfl
  | cons slot rest ih =>
    simp only [map_cons, mem_cons, not_or] at absent
    rw [foldl_cons, ih absent.2, lookup_addSlot_other absent.1]

/-- Of distinct keys, each has what was written for it. -/
theorem lookup_slots (distinct : (slots.map Prod.fst).Nodup) (mem : slot ∈ slots)
    {settings : Settings} (fresh : settings.lookup slot.1 = none) :
    (slots.foldl addSlot settings).lookup slot.1 = slot.2.map readValue := by
  obtain ⟨before, after, rfl⟩ := append_of_mem mem
  simp only [map_append, map_cons, nodup_append, nodup_cons, mem_cons] at distinct
  have notBefore : slot.1 ∉ before.map Prod.fst := fun earlier =>
    distinct.2.2 slot.1 earlier slot.1 (.inl rfl) rfl
  rw [foldl_append, foldl_cons, lookup_slots_other distinct.2.1.1]
  have unset := lookup_slots_other notBefore settings
  rw [fresh] at unset
  cases text : slot.2 with
  | none =>
    rw [addSlot, text]
    exact unset
  | some written =>
    rw [addSlot, text]
    rw [Assoc.lookup_put, beq_self_eq_true]
    rfl

/-! Lines that are read as settings. -/

/-- Lines that make the settings of some slots. -/
structure Reads (written : List String) (slots : Slots) : Prop where
  single : ∀ line ∈ written, '\n' ∉ line.toList
  sets : ∀ settings, written.foldl addLine settings = slots.foldl addSlot settings

theorem reads_nil : Reads [] [] := ⟨nofun, fun _ => rfl⟩

theorem reads_empty : Reads [""] [] := ⟨by simp, fun _ => rfl⟩

theorem Reads.append {first second : List String} {others : Slots} (reads : Reads first slots)
    (further : Reads second others) :
    Reads (first ++ second) (slots ++ others) where
  single := fun line mem => (mem_append.mp mem).elim (reads.single line)
    (further.single line)
  sets := fun settings => by
    rw [foldl_append, foldl_append, reads.sets, further.sets]

theorem reads_flatMap {α : Type} {entries : List α} {written : α → List String}
    {slots : α → Slots} (each : ∀ entry ∈ entries, Reads (written entry) (slots entry)) :
    Reads (entries.flatMap written) (entries.flatMap slots) := by
  induction entries with
  | nil => exact reads_nil
  | cons entry rest ih =>
    exact (each entry mem_cons_self).append
      (ih fun other mem => each other (mem_cons_of_mem entry mem))

theorem reads_slotLines
    (each : ∀ slot ∈ slots, IsKey slot.1.toList ∧ ∀ text, slot.2 = some text → Stands text.toList) :
    Reads (slotLines slots) slots := by
  induction slots with
  | nil => exact reads_nil
  | cons slot rest ih =>
    have later := ih fun other mem =>
      each other (mem_cons_of_mem slot mem)
    obtain ⟨isKey, stands⟩ := each slot mem_cons_self
    cases text : slot.2 with
    | none =>
      have unwritten : slotLines (slot :: rest) = slotLines rest := by simp [slotLines, text]
      rw [unwritten]
      refine ⟨later.single, fun settings => ?_⟩
      rw [later.sets, foldl_cons, addSlot, text]
    | some value =>
      have shape : slotLines (slot :: rest) = settingLine slot.1 value :: slotLines rest := by
        simp [slotLines, text]
      have fits := stands value text
      rw [shape]
      constructor
      · intro line mem
        rcases mem_cons.mp mem with rfl | inRest
        · exact (fitsLine_settingLine isKey fits).single
        · exact later.single line inRest
      · intro settings
        rw [foldl_cons, foldl_cons, addLine_settingLine isKey fits, later.sets, addSlot, text]

/-! The settings of a preset. -/

/-- The words that keys of passes start with. -/
def passWords : List String :=
  ["shader", "filter_linear", "scale_type", "scale", "scale_x", "scale_y", "alias",
   "srgb_framebuffer", "float_framebuffer", "format", "mipmap_input", "wrap_mode",
   "frame_count_mod"]

/-- What is written for a pass, by the words of its keys. -/
def passTexts (pass : ShaderPass) : Slots :=
  [("shader", some (quoted pass.shader)), ("filter_linear", some (flagText pass.filterLinear)),
   ("scale_type", some pass.scaleType.label)] ++ optionalSettings pass

def passSlots (index : Nat) (pass : ShaderPass) : Slots :=
  (passTexts pass).map fun slot => (slot.1 ++ toString index, slot.2)

def textureEndings : List String :=
  ["", "_linear", "_wrap_mode", "_mipmap"]

def textureKeys (texture : PresetTexture) : List String :=
  textureEndings.map (texture.name ++ ·)

def textureSlots (texture : PresetTexture) : Slots :=
  [(texture.name ++ "", some (quoted texture.path)),
   (texture.name ++ "_linear", some (flagText texture.linear)),
   (texture.name ++ "_wrap_mode", some texture.wrapMode.label),
   (texture.name ++ "_mipmap", some (flagText texture.mipmap))]

theorem textureLines_eq (texture : PresetTexture) :
    textureLines texture = slotLines (textureSlots texture) ++ [""] := by
  simp [textureLines, slotLines, textureSlots]

def parameterSlots (parameters : List ParameterValue) : Slots :=
  parameters.map fun parameter => (parameter.name, some (Decimal.render parameter.value))

def namesSlot (key : String) (names : List String) : String × Option String :=
  (key, if names.isEmpty then none else some (quoted (String.intercalate ";" names)))

def presetSlots (preset : Preset) : Slots :=
  ("shaders", some (toString preset.passes.length)) ::
    (preset.passes.zipIdx.flatMap fun entry => passSlots entry.2 entry.1) ++
  namesSlot "textures" (preset.textures.map PresetTexture.name) ::
    preset.textures.flatMap textureSlots ++
  namesSlot "parameters" (preset.parameters.map ParameterValue.name) ::
    parameterSlots preset.parameters

/-! Presets that are written without loss. -/

def isSettingName (name : String) : Bool :=
  !name.isEmpty && trim name == name && fitsLine name && !name.toList.contains '=' &&
    !name.toList.contains ';'

/-- A pass that can be written. Its format is written bare, and its doubles are
among those whose text is read back. -/
structure WritablePass (pass : ShaderPass) : Prop where
  shader : pass.shader ≠ "" ∧ fitsLine pass.shader = true
  aliasName : ∀ name, pass.aliasName = some name → name ≠ "" ∧ fitsLine name = true
  format : ∀ text, pass.format = some text →
    text ≠ "" ∧ trim text = text ∧ fitsLine text = true ∧ ∀ inner, text ≠ quoted inner
  scales : ∀ scale, some scale ∈ [pass.scale, pass.scaleX, pass.scaleY] →
    Decimal.readFloat? (Decimal.render scale) = some scale
  frameCountMod : ∀ count, pass.frameCountMod = some count →
    count.natAbs < 10 ^ Decimal.maxIntegerDigits

def ownKeys (preset : Preset) : List String :=
  preset.textures.flatMap textureKeys ++ preset.parameters.map ParameterValue.name

/-- A preset that can be written. -/
structure Writable (preset : Preset) : Prop where
  reference : ∀ path, preset.reference = some path →
    path ≠ "" ∧ '\n' ∉ path.toList ∧ '"' ∉ path.toList
  passes : ∀ pass ∈ preset.passes, WritablePass pass
  textures : ∀ texture ∈ preset.textures,
    isSettingName texture.name = true ∧ texture.path ≠ "" ∧ fitsLine texture.path = true
  parameters : ∀ parameter ∈ preset.parameters, isSettingName parameter.name = true ∧
    Decimal.readFloat? (Decimal.render parameter.value) = some parameter.value
  distinct : (ownKeys preset).Nodup
  unreserved : ∀ key ∈ ownKeys preset, key ∉ ["shaders", "textures", "parameters"] ∧
    ∀ index < preset.passes.length, ∀ word ∈ passWords, key ≠ word ++ toString index
  count : preset.passes.length < 10 ^ Decimal.maxIntegerDigits

/-! Names. -/

theorem ends_of_trim (trimmed : trim text = text) :
    text.toList.head?.any isBlank = false ∧ text.toList.getLast?.any isBlank = false := by
  apply ends_of_trimWhere_eq
  have characters := congrArg String.toList trimmed
  rwa [trim, String.toList_ofList] at characters

theorem isSettingName_key {name : String} (named : isSettingName name) :
    IsKey name.toList ∧ ';' ∉ name.toList := by
  simp only [isSettingName, Bool.and_eq_true, Bool.not_eq_true', beq_iff_eq,
    contains_eq_mem, decide_eq_false_iff_not] at named
  obtain ⟨⟨⟨⟨nonempty, trimmed⟩, fits⟩, unequal⟩, unlisted⟩ := named
  obtain ⟨first, last⟩ := ends_of_trim trimmed
  refine ⟨⟨⟨fitsLine_iff.mp fits, ?_, first, last⟩, unequal⟩, unlisted⟩
  simp_all

/-! Texts of values. -/

theorem stands_word (present : word.toList ≠ []) (plain : word.toList.all isKeyCharacter) :
    Stands word.toList :=
  (isKey_of_plain present (all_eq_true.mp plain)).stands

theorem stands_flag (flag : Bool) : Stands (flagText flag).toList := by
  cases flag <;> exact stands_word (by decide) (by decide)

theorem stands_scaleType (scaleType : ScaleType) : Stands scaleType.label.toList := by
  cases scaleType <;> exact stands_word (by decide) (by decide)

theorem stands_wrapMode (wrapMode : WrapMode) : Stands wrapMode.label.toList := by
  cases wrapMode <;> exact stands_word (by decide) (by decide)

theorem occursIn_slashes_of_not_mem {text : List Char} (absent : '/' ∉ text) :
    occursIn ['/', '/'] text = false := by
  induction text with
  | nil => rfl
  | cons c rest ih => simp_all [Ne.symm, occursIn_slashes_cons]

theorem stands_numeric (present : text ≠ "")
    (numeric : ∀ c ∈ text.toList, Decimal.isNumeric c) : Stands text.toList := by
  have absent : ∀ {c : Char}, Decimal.isNumeric c = false → c ∉ text.toList :=
    fun plain mem => Decimal.numeric_ne (numeric _ mem) plain rfl
  have visible : ∀ c ∈ text.toList, isBlank c = false :=
    fun c mem => Decimal.isBlank_of_numeric (numeric c mem)
  obtain ⟨first, last⟩ := ends_of_trimWhere_eq (trimWhere_of_none visible)
  refine ⟨⟨absent (by decide), absent (by decide), ?_⟩, by simpa using present, first, last⟩
  exact occursIn_slashes_of_not_mem (absent (by decide))

theorem bare_numeric (numeric : ∀ c ∈ text.toList, Decimal.isNumeric c) :
    readValue text = text := by
  apply readValue_bare
  apply ne_quoted_of_head
  intro head
  exact absurd (numeric '"' (mem_of_mem_head? head)) (by decide)

theorem numeric_toString (number : Int) : ∀ c ∈ (toString number).toList, Decimal.isNumeric c := by
  intro c mem
  rw [Int.toString_eq_repr, Int.repr_eq_if] at mem
  split at mem
  · rw [Nat.toList_repr] at mem
    exact Decimal.isNumeric_of_mem_toDigits mem
  · rw [String.toList_append, Nat.toList_repr] at mem
    rcases mem_append.mp mem with sign | digit
    · rw [mem_singleton.mp sign]
      decide
    · exact Decimal.isNumeric_of_mem_toDigits digit

theorem toString_ne_empty (number : Int) : toString number ≠ "" := by
  intro empty
  rw [Int.toString_eq_repr, Int.repr_eq_if] at empty
  have characters := congrArg String.toList empty
  split at characters
  · simp_all
  · simp at characters

theorem render_ne_empty {value : Float}
    (readBack : Decimal.readFloat? (Decimal.render value) = some value) :
    Decimal.render value ≠ "" := by
  intro empty
  rw [empty] at readBack
  cases readBack

theorem fitsLine_intercalate (each : ∀ name ∈ names, FitsLine name.toList) :
    FitsLine (String.intercalate ";" names).toList := by
  induction names with
  | nil => exact fitsLine_nil
  | cons name rest ih =>
    have here := each name mem_cons_self
    have later := ih fun other mem =>
      each other (mem_cons_of_mem name mem)
    cases rest with
    | nil => simpa using here
    | cons second others =>
      rw [String.intercalate_cons_of_ne_nil (cons_ne_nil _ _), String.toList_append,
        String.toList_append, append_assoc]
      exact here.join later (by decide) (by decide) (by decide)

/-! The lines of a preset. -/

theorem isKeyCharacter_of_mem_toString {index : Nat} {c : Char}
    (mem : c ∈ (toString index).toList) : isKeyCharacter c := by
  rw [Nat.toString_eq_repr, Nat.toList_repr] at mem
  rw [isKeyCharacter, Decimal.isAsciiDigit_of_mem_toDigits mem]
  simp

theorem isKey_passWord (listed : word ∈ passWords) (index : Nat) :
    IsKey (word ++ toString index).toList := by
  have words : ∀ word ∈ passWords, word.toList ≠ [] ∧ word.toList.all isKeyCharacter := by
    decide
  obtain ⟨present, plain⟩ := words word listed
  rw [String.toList_append]
  exact (isKey_of_plain present (all_eq_true.mp plain)).append
    fun _ => isKeyCharacter_of_mem_toString

theorem stands_passTexts (writable : WritablePass pass) :
    ∀ slot ∈ passTexts pass, ∀ text, slot.2 = some text → Stands text.toList := by
  have scales : ∀ scale : Option Float, scale ∈ [pass.scale, pass.scaleX, pass.scaleY] →
      ∀ text, scale.map Decimal.render = some text → Stands text.toList := by
    intro scale listed text written
    obtain ⟨value, rfl, rfl⟩ := Option.map_eq_some_iff.mp written
    exact stands_numeric (render_ne_empty (writable.scales value listed))
      (Decimal.isNumeric_render value)
  have flags : ∀ (flag : Option Bool) text, flag.map flagText = some text → Stands text.toList := by
    intro flag text written
    obtain ⟨value, -, rfl⟩ := Option.map_eq_some_iff.mp written
    exact stands_flag value
  intro slot mem text written
  simp only [passTexts, optionalSettings, cons_append, nil_append, mem_cons,
    not_mem_nil, or_false] at mem
  rcases mem with rfl | rfl | rfl | rfl | rfl | rfl | rfl | rfl | rfl | rfl | rfl | rfl | rfl
  · cases written
    exact stands_quoted (fitsLine_iff.mp writable.shader.2)
  · cases written
    exact stands_flag _
  · cases written
    exact stands_scaleType _
  · exact scales _ (by simp) text written
  · exact scales _ (by simp) text written
  · exact scales _ (by simp) text written
  · obtain ⟨name, found, rfl⟩ := Option.map_eq_some_iff.mp written
    exact stands_quoted (fitsLine_iff.mp
      (writable.aliasName name (Option.filter_eq_some_iff.mp found).1).2)
  · exact flags _ text written
  · exact flags _ text written
  · obtain ⟨present, trimmed, fits, -⟩ := writable.format text written
    obtain ⟨first, last⟩ := ends_of_trim trimmed
    exact ⟨fitsLine_iff.mp fits, by simpa using present, first, last⟩
  · exact flags _ text written
  · obtain ⟨value, -, rfl⟩ := Option.map_eq_some_iff.mp written
    exact stands_wrapMode value
  · obtain ⟨count, -, rfl⟩ := Option.map_eq_some_iff.mp written
    exact stands_numeric (toString_ne_empty count) (numeric_toString count)

theorem reads_pass (writable : WritablePass pass) (index : Nat) :
    Reads (passLines index pass) (passSlots index pass) := by
  have lines : Reads (slotLines (passSlots index pass)) (passSlots index pass) := by
    apply reads_slotLines
    intro slot mem
    obtain ⟨word, listed, rfl⟩ := mem_map.mp mem
    have isWord : word.1 ∈ passWords := by
      exact mem_map_of_mem listed
    exact ⟨isKey_passWord isWord index, stands_passTexts writable word listed⟩
  exact lines.append reads_empty

theorem isKey_texture (named : isSettingName texture.name) :
    ∀ key ∈ textureKeys texture, IsKey key.toList := by
  have endings : ∀ ending ∈ textureEndings, ending.toList.all isKeyCharacter := by
    decide
  intro key mem
  obtain ⟨ending, listed, rfl⟩ := mem_map.mp mem
  rw [String.toList_append]
  exact (isSettingName_key named).1.append (all_eq_true.mp (endings ending listed))

theorem reads_texture (named : isSettingName texture.name) (fits : fitsLine texture.path) :
    Reads (textureLines texture) (textureSlots texture) := by
  have lines : Reads (slotLines (textureSlots texture)) (textureSlots texture) := by
    apply reads_slotLines
    intro slot mem
    refine ⟨isKey_texture named slot.1 ?_, ?_⟩
    · exact mem_map_of_mem mem
    · intro text written
      simp only [textureSlots, mem_cons, not_mem_nil, or_false] at mem
      rcases mem with rfl | rfl | rfl | rfl <;> cases written
      · exact stands_quoted (fitsLine_iff.mp fits)
      · exact stands_flag _
      · exact stands_wrapMode _
      · exact stands_flag _
  rw [textureLines_eq]
  exact lines.append reads_empty

theorem reads_names (isKey : IsKey key.toList) (each : ∀ name ∈ names, isSettingName name) :
    Reads (if names.isEmpty then [] else listLines key names) [namesSlot key names] := by
  cases empty : names.isEmpty with
  | true =>
    refine ⟨nofun, fun settings => ?_⟩
    simp [namesSlot, empty, addSlot]
  | false =>
    have fits : FitsLine (String.intercalate ";" names).toList :=
      fitsLine_intercalate fun name mem => (isSettingName_key (each name mem)).1.stands.fits
    have line : Reads (slotLines [namesSlot key names]) [namesSlot key names] := by
      apply reads_slotLines
      intro slot mem
      obtain rfl := mem_singleton.mp mem
      refine ⟨isKey, fun text written => ?_⟩
      simp only [namesSlot, empty, Bool.false_eq_true, if_false, Option.some.injEq] at written
      subst written
      exact stands_quoted fits
    have shape : listLines key names = slotLines [namesSlot key names] ++ [""] := by
      simp [listLines, slotLines, namesSlot, empty]
    rw [shape]
    exact line.append reads_empty

theorem reads_parameters {params : List ParameterValue}
    (each : ∀ parameter ∈ params, isSettingName parameter.name ∧
      Decimal.readFloat? (Decimal.render parameter.value) = some parameter.value) :
    Reads (params.map fun parameter =>
        settingLine parameter.name (Decimal.render parameter.value))
      (parameterSlots params) := by
  have shape : (params.map fun parameter =>
      settingLine parameter.name (Decimal.render parameter.value)) =
        slotLines (parameterSlots params) := by
    rw [slotLines, parameterSlots, filterMap_map]
    exact (congrFun filterMap_eq_map params).symm
  rw [shape]
  apply reads_slotLines
  intro slot mem
  obtain ⟨parameter, listed, rfl⟩ := mem_map.mp mem
  grind [isSettingName_key, stands_numeric, render_ne_empty, Decimal.isNumeric_render]

def bodyLines (preset : Preset) : List String :=
  [settingLine "shaders" (toString preset.passes.length), ""] ++
    (preset.passes.zipIdx.flatMap fun entry => passLines entry.2 entry.1) ++
    textureSection preset.textures ++ parameterSection preset.parameters

theorem render_eq (preset : Preset) :
    render preset = unlines (referenceLines preset.reference ++ bodyLines preset) := by
  simp [render, bodyLines]

theorem reads_textureSection {textures : List PresetTexture}
    (each : ∀ texture ∈ textures, isSettingName texture.name ∧ fitsLine texture.path) :
    Reads (textureSection textures)
      (namesSlot "textures" (textures.map PresetTexture.name) :: textures.flatMap textureSlots) := by
  have named : ∀ name ∈ textures.map PresetTexture.name, isSettingName name := by
    intro name mem
    obtain ⟨texture, listed, rfl⟩ := mem_map.mp mem
    exact (each texture listed).1
  have isKey : IsKey "textures".toList := isKey_of_plain (by decide) (all_eq_true.mp (by decide))
  have names := reads_names isKey named
  have lines := reads_flatMap fun texture mem =>
    reads_texture (each texture mem).1 (each texture mem).2
  have shape : textureSection textures = (if (textures.map PresetTexture.name).isEmpty then []
        else listLines "textures" (textures.map PresetTexture.name)) ++
      textures.flatMap textureLines := by
    cases textures <;> rfl
  rw [shape]
  exact names.append lines

theorem reads_parameterSection {params : List ParameterValue}
    (each : ∀ parameter ∈ params, isSettingName parameter.name ∧
      Decimal.readFloat? (Decimal.render parameter.value) = some parameter.value) :
    Reads (parameterSection params) (namesSlot "parameters" (params.map ParameterValue.name) ::
        parameterSlots params) := by
  have named : ∀ name ∈ params.map ParameterValue.name, isSettingName name := by
    intro name mem
    obtain ⟨parameter, listed, rfl⟩ := mem_map.mp mem
    exact (each parameter listed).1
  have isKey : IsKey "parameters".toList := isKey_of_plain (by decide) (all_eq_true.mp (by decide))
  have names := reads_names isKey named
  have lines := names.append (reads_parameters each)
  cases params with
  | nil => exact lines
  | cons first others =>
    have whole := lines.append reads_empty
    rw [append_nil] at whole
    exact whole

theorem reads_body (writable : Writable preset) :
    Reads (bodyLines preset) (presetSlots preset) := by
  have count : Reads [settingLine "shaders" (toString preset.passes.length), ""]
      [("shaders", some (toString preset.passes.length))] := by
    have number := toString_ne_empty preset.passes.length
    have numeric := numeric_toString preset.passes.length
    have line : Reads (slotLines [("shaders", some (toString (preset.passes.length : Int)))])
        [("shaders", some (toString (preset.passes.length : Int)))] := by
      apply reads_slotLines
      intro slot mem
      obtain rfl := mem_singleton.mp mem
      refine ⟨show IsKey "shaders".toList from isKey_of_plain (by decide)
        (all_eq_true.mp (by decide)), fun text written => ?_⟩
      cases written
      exact stands_numeric number numeric
    exact line.append reads_empty
  have passes : Reads (preset.passes.zipIdx.flatMap fun entry => passLines entry.2 entry.1)
      (preset.passes.zipIdx.flatMap fun entry => passSlots entry.2 entry.1) :=
    reads_flatMap fun entry mem =>
      reads_pass (writable.passes entry.1 (fst_mem_of_mem_zipIdx mem)) entry.2
  have textures := reads_textureSection fun texture mem =>
    ⟨(writable.textures texture mem).1, (writable.textures texture mem).2.2⟩
  have params := reads_parameterSection writable.parameters
  have whole := ((count.append passes).append textures).append params
  exact whole

/-! Distinct keys. -/

theorem trimEndWhere_append_all {inClass : Char → Bool} {front back : List Char}
    (all : ∀ c ∈ back, inClass c) :
    trimEndWhere inClass (front ++ back) = trimEndWhere inClass front := by simp_all [trimEndWhere]

theorem passKey_stem (listed : word ∈ passWords) (index : Nat) :
    trimEndWhere isAsciiDigit (word ++ toString index).toList = word.toList := by
  have stems : ∀ word ∈ passWords, word.toList.getLast?.any isAsciiDigit = false := by decide
  grind [String.toList_append, trimEndWhere_append_all, trimEndWhere_eq_self, Nat.toList_repr, Decimal.isAsciiDigit_of_mem_toDigits]

/-- A key of a pass tells its word and its number. -/
theorem passKey_injective {first second : String} (firstListed : first ∈ passWords)
    (secondListed : second ∈ passWords) {left right : Nat}
    (same : first ++ toString left = second ++ toString right) : first = second ∧ left = right := by
  have stems := congrArg (fun key : String => trimEndWhere isAsciiDigit key.toList) same
  simp only [passKey_stem firstListed, passKey_stem secondListed] at stems
  obtain rfl := String.toList_inj.mp stems
  grind [String.toList_append, append_cancel_left_eq, Nat.toList_repr, Decimal.toDigits_injective]

def passKeysBelow (count : Nat) : List String :=
  (List.range count).flatMap fun index => passWords.map (· ++ toString index)

theorem passSlots_keys (passes : List ShaderPass) :
    (passes.zipIdx.flatMap fun entry => passSlots entry.2 entry.1).map Prod.fst =
      passKeysBelow passes.length := by
  rw [map_flatMap, passKeysBelow, range_eq_range', ← zipIdx_map_snd, flatMap_map]
  rfl

theorem mem_passKeysBelow {count : Nat} :
    key ∈ passKeysBelow count ↔ ∃ index < count, ∃ word ∈ passWords, word ++ toString index = key := by
  simp [passKeysBelow]

theorem passKeysBelow_nodup (count : Nat) : (passKeysBelow count).Nodup := by
  have words : passWords.Nodup := by decide
  rw [List.Nodup, passKeysBelow, pairwise_flatMap]
  constructor
  · intro index _
    rw [pairwise_map]
    refine words.imp_of_mem fun {first second} firstListed secondListed ne same => ?_
    simp_all
  · refine pairwise_lt_range.imp fun {left right} less key keyMember other otherMember => ?_
    grind [passKey_injective]

theorem presetSlots_keys (preset : Preset) :
    (presetSlots preset).map Prod.fst = "shaders" :: passKeysBelow preset.passes.length ++
        "textures" :: preset.textures.flatMap textureKeys ++
        "parameters" :: preset.parameters.map ParameterValue.name := by
  have textures : (preset.textures.flatMap textureSlots).map Prod.fst =
      preset.textures.flatMap textureKeys := by
    rw [map_flatMap]
    rfl
  have params : (parameterSlots preset.parameters).map Prod.fst =
      preset.parameters.map ParameterValue.name := by
    rw [parameterSlots, map_map]
    rfl
  simp only [presetSlots, map_append, map_cons, passSlots_keys, textures, params]
  rfl

theorem presetSlots_distinct (writable : Writable preset) :
    ((presetSlots preset).map Prod.fst).Nodup := by
  have passUnfixed : ∀ key ∈ passKeysBelow preset.passes.length,
      key ∉ ["shaders", "textures", "parameters"] := by
    intro key mem
    obtain ⟨index, -, word, isWord, rfl⟩ := mem_passKeysBelow.mp mem
    have stem := passKey_stem isWord index
    have unstemmed : ∀ key ∈ ["shaders", "textures", "parameters"],
        trimEndWhere isAsciiDigit key.toList ∉ passWords.map String.toList := by decide
    grind
  have ownPass : ∀ key ∈ passKeysBelow preset.passes.length, key ∉ ownKeys preset := by
    intro key mem own
    obtain ⟨index, below, word, isWord, rfl⟩ := mem_passKeysBelow.mp mem
    exact (writable.unreserved _ own).2 index below word isWord rfl
  have sorted : (presetSlots preset).map Prod.fst ~ ["shaders", "textures", "parameters"] ++
      (passKeysBelow preset.passes.length ++ ownKeys preset) := by
    rw [presetSlots_keys, cons_append, cons_append, append_assoc, cons_append]
    refine .cons _ (perm_middle.trans (.cons _ ?_))
    rw [← append_assoc]
    refine perm_middle.trans (.cons _ ?_)
    rw [append_assoc]
    rfl
  rw [sorted.nodup_iff, nodup_append, nodup_append]
  refine ⟨by decide, ⟨passKeysBelow_nodup _, writable.distinct, ?_⟩, ?_⟩
  · grind
  · rintro key fixed _ mem rfl
    rcases mem_append.mp mem with isPass | own
    · exact passUnfixed key isPass fixed
    · exact (writable.unreserved key own).1 fixed

/-! What is found again. -/

theorem hash_not_mem_key (writable : Writable preset) :
    referenceKey ∉ (presetSlots preset).map Prod.fst := by
  have unhashed : ∀ {key : String}, IsKey key.toList → referenceKey ≠ key := by
    rintro key isKey rfl
    exact isKey.stands.fits.unhashed (by decide)
  rw [presetSlots_keys]
  simp only [mem_append, mem_cons, not_or]
  refine ⟨⟨⟨by decide, ?_⟩, by decide, ?_⟩, by decide, ?_⟩
  · intro mem
    obtain ⟨index, -, word, isWord, same⟩ := mem_passKeysBelow.mp mem
    exact unhashed (isKey_passWord isWord index) same.symm
  · intro mem
    obtain ⟨texture, listed, isKey⟩ := mem_flatMap.mp mem
    exact unhashed (isKey_texture (writable.textures texture listed).1 _ isKey) rfl
  · intro mem
    obtain ⟨parameter, listed, same⟩ := mem_map.mp mem
    exact unhashed (isSettingName_key (writable.parameters parameter listed).1).1 same.symm

def referenceSettings (preset : Preset) : Settings :=
  (preset.reference.map fun path => (referenceKey, path)).toList

theorem ofText_render (writable : Writable preset) :
    Settings.ofText (render preset) = (presetSlots preset).foldl addSlot (referenceSettings preset) := by
  have body := reads_body writable
  have single : ∀ line ∈ referenceLines preset.reference ++ bodyLines preset,
      '\n' ∉ line.toList := by
    intro line mem
    rcases mem_append.mp mem with inReference | inBody
    · cases found : preset.reference with
      | none =>
        rw [found] at inReference
        cases inReference
      | some path =>
        obtain ⟨present, inLine, -⟩ := writable.reference path found
        rw [found, referenceLines, if_neg (by simpa using present)] at inReference
        simp only [mem_cons, not_mem_nil, or_false] at inReference
        rcases inReference with rfl | rfl
        · rw [String.toList_append, quoted_toList]
          simp [inLine]
        · simp
    · exact body.single line inBody
  have reference : (referenceLines preset.reference).foldl addLine [] =
      referenceSettings preset := by
    rw [referenceSettings]
    cases found : preset.reference with
    | none => rfl
    | some path =>
      obtain ⟨present, -, unquoted⟩ := writable.reference path found
      rw [referenceLines, if_neg (by simpa using present), foldl_cons,
        addLine_reference [] present unquoted]
      rfl
  rw [Settings.ofText, render_eq, lines_unlines (by simp [bodyLines]) single, foldl_append,
    reference, body.sets]

/-- Every setting of a preset is found again by its key. -/
theorem lookup_render (writable : Writable preset) (mem : slot ∈ presetSlots preset) :
    (Settings.ofText (render preset)).lookup slot.1 = slot.2.map readValue := by
  rw [ofText_render writable]
  apply lookup_slots (presetSlots_distinct writable) mem
  have ne : slot.1 ≠ referenceKey := by
    intro same
    apply hash_not_mem_key writable
    rw [← same]
    exact mem_map_of_mem mem
  simp_all [referenceSettings]

theorem lookup_reference (writable : Writable preset) :
    (Settings.ofText (render preset)).lookup referenceKey = preset.reference := by
  rw [ofText_render writable, lookup_slots_other (hash_not_mem_key writable), referenceSettings]
  cases preset.reference with
  | none => rfl
  | some path => simp

end WebShader.Preset
