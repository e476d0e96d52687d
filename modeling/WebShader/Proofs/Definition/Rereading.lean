import Mathlib.Data.List.Nodup
import WebShader.Proofs.Definition.Spelled

/-!
Contract: a preamble that is rendered and read again.

Owns: preambles whose parts are stored with well formed texts, and that reading
their rendering gives the parts back.
-/

namespace WebShader

open FunctionDefinition

def FunctionDefinition.unplaced (definition : FunctionDefinition) : FunctionDefinition :=
  { definition with start := 0, stop := 0 }

def StructDefinition.unplaced (definition : StructDefinition) : StructDefinition :=
  { definition with start := 0, stop := 0 }

def GlobalVariable.unclassified (global : GlobalVariable) : GlobalVariable :=
  { global with sharing := .unclassified }

end WebShader

namespace WebShader.Preamble

open List Token Definition FunctionDefinition

/-! Definitions. -/

def functionView (source : String) (definition : Definition) : Option FunctionDefinition :=
  (functionOf? source definition).map unplaced

def structView (source : String) (definition : Definition) : Option StructDefinition :=
  (structOf? source definition).map StructDefinition.unplaced

theorem portable_functionView : Portable functionView := by
  intro front text back defn bounded
  have cut := @slice_inside front text back defn.start defn.stop bounded
  rw [functionView, functionOf?, functionView, functionOf?]
  simp only [moved, cut]
  cases defn.kind <;> rfl

theorem portable_structView : Portable structView := by
  intro front text back defn bounded
  have cut := @slice_inside front text back defn.start defn.stop bounded
  rw [structView, structOf?, structView, structOf?]
  simp only [moved, cut]
  cases defn.kind <;> rfl

theorem portable_signature : Portable fun _ defn => signature defn :=
  fun _ _ _ _ _ => rfl

theorem foldl_keep_new {kept defns : List Definition}
    (distinct : ((kept ++ defns).map signature).Nodup) :
    defns.foldl keep kept = kept ++ defns := by
  induction defns generalizing kept with
  | nil => rw [append_nil]; rfl
  | cons defn rest ih =>
    have shape : kept ++ defn :: rest = kept ++ [defn] ++ rest := by simp
    have new : signature defn ∉ kept.map signature := by
      rw [map_append, nodup_append] at distinct
      exact fun known => distinct.2.2 _ known _ mem_cons_self rfl
    rw [shape] at distinct ⊢
    rw [foldl_cons, keep_new new, ih distinct]

/-- Definitions with different signatures are all kept. -/
theorem firstOfEach_distinct {defns : List Definition}
    (distinct : (defns.map signature).Nodup) : firstOfEach defns = defns := by
  rw [firstOfEach_eq, foldl_keep_new (by rwa [nil_append]), nil_append]

/-! Declarations. -/

def addDeclared (claimed : List String) (preamble : Preamble) : Option Declaration → Preamble
  | none => preamble
  | some declaration =>
    (if declaration.isConst then addConst claimed preamble declaration
      else declaration.declarators.foldlM (addGlobal claimed declaration.typeName) preamble).value

theorem readAll_declared (source : String) (claimed : List String) (stmts : List (List Token))
    (start : Preamble) :
    readAll source claimed stmts start =
      (stmts.map (declaration? source)).foldl (addDeclared claimed) start := by
  induction stmts generalizing start with
  | nil => rfl
  | cons stmt rest ih =>
    have here : (addStatement source claimed start stmt).value =
        addDeclared claimed start (declaration? source stmt) := by
      rw [addStatement]
      cases declaration? source stmt <;> rfl
    rw [readAll, foldl_cons, here, map_cons, foldl_cons, ← ih]
    rfl

/-- A constant with new names that nothing claims is added as it is. -/
theorem addDeclared_const {claimed : List String} {preamble : Preamble} {typeName text : String}
    {decls : List Declarator} (present : decls ≠ [])
    (free : ∀ decl ∈ decls, decl.name ∉ claimed ∧ decl.name ∉ preamble.constNames) :
    addDeclared claimed preamble (some ⟨true, typeName, decls, text⟩) =
      { preamble with
        consts := preamble.consts ++ [⟨typeName, decls.map Declarator.name, text⟩] } := by
  have kept : keptOf claimed preamble ⟨true, typeName, decls, text⟩ = decls := by
    refine filter_eq_self.mpr fun decl mem => ?_
    simp [free decl mem]
  have taken : takenOf claimed ⟨true, typeName, decls, text⟩ = [] := by
    refine filter_eq_nil_iff.mpr fun decl mem => ?_
    simp [free decl mem]
  simp_all [addDeclared, addConst_value, withClaimed, constantOf]

/-- A global with a new name is added, without an initial value where it is claimed. -/
theorem addDeclared_global {claimed : List String} {preamble : Preamble} {typeName text : String}
    {decl : Declarator} (new : decl.name ∉ preamble.globalNames) :
    addDeclared claimed preamble (some ⟨false, typeName, [decl], text⟩) =
      { preamble with
        globals := preamble.globals ++
          [{ typeName, name := decl.name,
             initializer := if claimed.contains decl.name then none else decl.initializer,
             arraySuffix := decl.arraySuffix, claimed := claimed.contains decl.name,
             sharing := .unclassified }] } := by
  have absent : (preamble.globals.map GlobalVariable.name).contains decl.name = false :=
    Bool.eq_false_iff.mpr fun listed => new (contains_iff_mem.mp listed)
  rw [addDeclared, if_neg Bool.false_ne_true, foldlM_cons, addGlobal, absent]
  rfl

/-! Preambles. -/

def claimedNames (preamble : Preamble) : List String :=
  (preamble.globals.filter GlobalVariable.claimed).map GlobalVariable.name

/-- A preamble whose parts are stored with their texts, each name once. -/
structure SpelledPreamble where
  structs : List SpelledStruct
  consts : List SpelledConst
  globals : List SpelledGlobal
  functions : List SpelledFunction
  distinctStructs : (structs.map fun spelled => spelled.definition.name).Nodup
  distinctConsts : (consts.flatMap fun spelled => spelled.definition.names).Nodup
  distinctGlobals : (globals.map fun spelled => spelled.global.name).Nodup
  distinctFunctions : (functions.map fun spelled =>
    (spelled.definition.name, squeezeBlanks spelled.definition.parameters)).Nodup
  unclaimed : ∀ spelled ∈ globals, spelled.global.claimed = true →
    spelled.global.name ∉ consts.flatMap fun constant => constant.definition.names

namespace SpelledPreamble

open FunctionDefinition

variable (spelled : SpelledPreamble)

def preamble : Preamble where
  functions := spelled.functions.map SpelledFunction.definition
  structs := spelled.structs.map SpelledStruct.definition
  macros := []
  consts := spelled.consts.map SpelledConst.definition
  globals := spelled.globals.map SpelledGlobal.global

/-- The parts in the order of rendering, with what separates those of one kind. -/
def sections : List (String × List Entry) :=
  [("\n", spelled.structs.map SpelledStruct.entry),
   ("\n", spelled.consts.map fun constant => constant.written.entry),
   ("\n", spelled.globals.map fun global => global.written.entry),
   ("\n\n", spelled.functions.map SpelledFunction.entry)]

def entries : List Entry :=
  spelled.sections.flatMap Prod.snd

theorem render_eq : render spelled.preamble =
    String.intercalate "\n\n" ((spelled.sections.filter fun part => !part.2.isEmpty).map
      fun part => String.intercalate part.1 (part.2.map Entry.text)) := by
  have texts : [("\n", spelled.preamble.structs.map StructDefinition.text),
      ("\n", spelled.preamble.consts.map ConstDefinition.text),
      ("\n", spelled.preamble.globals.map GlobalVariable.declaration),
      ("\n\n", spelled.preamble.functions.map FunctionDefinition.text)] =
        spelled.sections.map fun part => (part.1, part.2.map Entry.text) := by
    simp only [preamble, sections, map_map, map_cons]
    rfl
  rw [render]
  simp only [texts, filter_map, map_map, Function.comp_def, isEmpty_map]

theorem sections_lines {part : String × List Entry} (mem : part ∈ spelled.sections) :
    (∀ c ∈ part.1.toList, c = '\n') ∧ part.1.toList ≠ [] := by
  have separators : ∀ sep ∈ spelled.sections.map Prod.fst,
      (∀ c ∈ sep.toList, c = '\n') ∧ sep.toList ≠ [] := by
    simp [sections]
  exact separators _ (mem_map_of_mem mem)

theorem flatMap_nonempty (parts : List (String × List Entry)) :
    (parts.filter fun part => !part.2.isEmpty).flatMap Prod.snd = parts.flatMap Prod.snd := by
  induction parts with
  | nil => rfl
  | cons part rest ih => grind

/-- The rendering is the entries with line ends between them. -/
theorem exists_laid : ∃ items, Laid spelled.entries (render spelled.preamble ++ "\n").toList items := by
  have parts : ∃ items, Laid spelled.entries (render spelled.preamble).toList items := by
    have laid := @exists_laid_intercalate "\n\n" (by simp)
      ((spelled.sections.filter fun part => !part.2.isEmpty).map fun part =>
        (part.2, String.intercalate part.1 (part.2.map Entry.text))) (by
        intro pair mem
        obtain ⟨part, listed, rfl⟩ := mem_map.mp mem
        exact exists_laid_entries (spelled.sections_lines (mem_filter.mp listed).1).1 part.2)
    rw [map_map, flatMap_map] at laid
    rw [spelled.render_eq, entries, ← flatMap_nonempty]
    exact laid
  obtain ⟨items, laid⟩ := parts
  have ended := laid.append (.lineFeed .nil)
  rw [append_nil] at ended
  exact ⟨_, by rw [String.toList_append]; exact ended⟩

theorem unmarked_entries : ∀ entry ∈ spelled.entries, Unmarked entry.text.toList := by
  intro entry mem
  simp only [entries, sections, flatMap_cons, flatMap_nil, append_nil, mem_append, mem_map] at mem
  rcases mem with ⟨part, -, rfl⟩ | ⟨part, -, rfl⟩ | ⟨part, -, rfl⟩ | ⟨part, -, rfl⟩
  · exact part.unmarked
  · exact part.written.unmarked
  · exact part.unmarked
  · exact part.unmarked

theorem unmarked_render : Unmarked (render spelled.preamble ++ "\n").toList := by
  have whole : Unmarked (render spelled.preamble).toList := by
    rw [spelled.render_eq]
    refine unmarked_intercalate (by simp) (by decide) fun text mem => ?_
    obtain ⟨part, listed, rfl⟩ := mem_map.mp mem
    have inSections := (mem_filter.mp listed).1
    obtain ⟨lines, present⟩ := spelled.sections_lines inSections
    refine unmarked_intercalate lines present fun own inPart => ?_
    obtain ⟨entry, isEntry, rfl⟩ := mem_map.mp inPart
    exact spelled.unmarked_entries entry (mem_flatMap.mpr ⟨part, inSections, isEntry⟩)
  rw [String.toList_append]
  exact whole.append_cons unmarked_nil (by decide)

/-! What the entries define. -/

theorem views_struct (struct : SpelledStruct) :
    (struct.entry.item.definitions 0).map (structView struct.entry.text) =
        [some struct.definition.unplaced] ∧
      (struct.entry.item.definitions 0).map (functionView struct.entry.text) = [none] ∧
      (struct.entry.item.definitions 0).map signature =
        [(.struct, struct.definition.name, squeezeBlanks "")] := by
  have width : width struct.item.core = struct.definition.text.length := by
    rw [← struct.spelled, width_lexemes]
  have defn : struct.entry.item.definitions 0 = [struct.item.definitionAt 0] := by
    have lead : struct.item.definition 0 = struct.item.definitionAt 0 := by
      rw [StructItem.definition, struct.bare]
      rfl
    rw [← lead]
    rfl
  have cut : Text.slice struct.definition.text (struct.item.definitionAt 0).start
      (struct.item.definitionAt 0).stop = struct.definition.text := by
    simp only [StructItem.definitionAt, Nat.zero_add, width]
    exact slice_all _
  rw [defn]
  refine ⟨?_, rfl, ?_⟩
  · have read : structView struct.definition.text (struct.item.definitionAt 0) =
        some ⟨struct.item.name, Text.slice struct.definition.text (struct.item.definitionAt 0).start
          (struct.item.definitionAt 0).stop, 0, 0⟩ := rfl
    rw [cut, struct.named] at read
    exact congrArg (fun view => [view]) read
  · rw [← struct.named]
    rfl

theorem views_function (fn : SpelledFunction) :
    (fn.entry.item.definitions 0).map (structView fn.entry.text) = [none] ∧
      (fn.entry.item.definitions 0).map (functionView fn.entry.text) =
        [some fn.definition.unplaced] ∧
      (fn.entry.item.definitions 0).map signature =
        [(.function, fn.definition.name, squeezeBlanks fn.definition.parameters)] := by
  have width : width fn.item.pieces = fn.definition.text.length := by
    rw [← fn.spelled, width_lexemes]
  have cut : Text.slice fn.definition.text (fn.item.definition 0).start
      (fn.item.definition 0).stop = fn.definition.text := by
    simp only [FunctionItem.definition, Nat.zero_add, width]
    exact slice_all _
  refine ⟨rfl, ?_, ?_⟩
  · have read : functionView fn.definition.text (fn.item.definition 0) =
        some ⟨fn.item.returnType, fn.item.name, (fn.item.definition 0).parameters,
          Text.slice fn.definition.text (fn.item.definition 0).start
            (fn.item.definition 0).stop, 0, 0⟩ := rfl
    rw [cut, fn.named, fn.typed, fn.parameters] at read
    exact congrArg (fun view => [view]) read
  · rw [← fn.named, ← fn.parameters]
    rfl

theorem flatMap_entries {α : Type} (view : Entry → List α) :
    spelled.entries.flatMap view = (spelled.structs.flatMap fun struct => view struct.entry) ++
        ((spelled.consts.flatMap fun constant => view constant.written.entry) ++
          ((spelled.globals.flatMap fun global => view global.written.entry) ++
            spelled.functions.flatMap fun fn => view fn.entry)) := by
  simp only [entries, sections, flatMap_cons, flatMap_nil, append_nil, flatMap_append, flatMap_map]

/-- What is read from the definitions of all entries: the structures, then the functions. -/
theorem flatMap_definitions {α : Type} (view : String → Definition → α) :
    (spelled.entries.flatMap fun entry => (entry.item.definitions 0).map (view entry.text)) =
      (spelled.structs.flatMap fun struct =>
          (struct.entry.item.definitions 0).map (view struct.entry.text)) ++
        spelled.functions.flatMap fun fn =>
          (fn.entry.item.definitions 0).map (view fn.entry.text) := by
  have constants : (spelled.consts.flatMap fun constant =>
      (constant.written.entry.item.definitions 0).map (view constant.written.entry.text)) = [] :=
    flatMap_eq_nil_iff.mpr fun _ _ => rfl
  have globals : (spelled.globals.flatMap fun global =>
      (global.written.entry.item.definitions 0).map (view global.written.entry.text)) = [] :=
    flatMap_eq_nil_iff.mpr fun _ _ => rfl
  rw [spelled.flatMap_entries, constants, globals]
  rfl

/-- What all entries declare: the constants, then the globals. -/
theorem flatMap_declared : spelled.entries.flatMap Entry.declared =
    (spelled.consts.flatMap fun constant => constant.written.entry.declared) ++
      spelled.globals.flatMap fun global => global.written.entry.declared := by
  have structs : (spelled.structs.flatMap fun struct => struct.entry.declared) = [] := by
    refine flatMap_eq_nil_iff.mpr fun struct _ => ?_
    have visible : struct.entry.item.visible 0 = [] := by
      show codeTokens (place 0 struct.item.lead) = []
      rw [struct.bare]
      rfl
    rw [Entry.declared, visible]
    rfl
  have functions : (spelled.functions.flatMap fun fn => fn.entry.declared) = [] :=
    flatMap_eq_nil_iff.mpr fun _ _ => rfl
  rw [spelled.flatMap_entries, structs, functions, append_nil]
  rfl

section Items

variable {items : List Item} (laid : Laid spelled.entries (render spelled.preamble ++ "\n").toList items)
include laid

/-- What is read from the definitions of the rendering. -/
theorem map_definitions {α : Type} {view : String → Definition → α} (portable : Portable view) :
    (definitionsFrom 0 items).map (view (render spelled.preamble ++ "\n")) =
      (spelled.structs.flatMap fun struct =>
          (struct.entry.item.definitions 0).map (view struct.entry.text)) ++
        spelled.functions.flatMap fun fn =>
          (fn.entry.item.definitions 0).map (view fn.entry.text) := by
  have read := laid.definitions portable "" ""
  rw [String.ofList_toList, String.empty_append, String.append_empty] at read
  rw [← spelled.flatMap_definitions]
  exact read

theorem nodup_signatures : ((definitionsFrom 0 items).map signature).Nodup := by
  have signs := spelled.map_definitions laid portable_signature
  simp only [(views_struct _).2.2, (views_function _).2.2] at signs
  rw [signs, ← map_eq_flatMap, ← map_eq_flatMap, nodup_append]
  refine ⟨?_, ?_, ?_⟩
  · have distinct := spelled.distinctStructs
    grind
  · have distinct := spelled.distinctFunctions
    grind
  simp

/-- The structures and functions of the rendering are those of the preamble. -/
theorem startOf_render (macros : List MacroDefinition) :
    (startOf (render spelled.preamble ++ "\n") (definitionsFrom 0 items) macros).structs.map
        StructDefinition.unplaced = spelled.preamble.structs.map StructDefinition.unplaced ∧
      (startOf (render spelled.preamble ++ "\n") (definitionsFrom 0 items) macros).functions.map
        unplaced =
          spelled.preamble.functions.map unplaced := by
  have structs := spelled.map_definitions laid portable_structView
  have functions := spelled.map_definitions laid portable_functionView
  simp only [(views_struct _).1, (views_function _).1] at structs
  simp only [(views_struct _).2.1, (views_function _).2.1] at functions
  have found {α : Type} (view : Definition → Option α) : (definitionsFrom 0 items).filterMap view =
      ((definitionsFrom 0 items).map view).filterMap id := by
    rw [filterMap_map]
    rfl
  have some {α β : Type} (value : α → β) (values : List α) :
      (values.flatMap fun item => [some (value item)]).filterMap id = values.map value := by
    rw [← map_eq_flatMap, filterMap_map]
    exact congrFun filterMap_eq_map values
  have none {α β : Type} (values : List α) :
      (values.flatMap fun _ => [(none : Option β)]).filterMap id = [] := by
    rw [← map_eq_flatMap, filterMap_map]
    exact filterMap_eq_nil_iff.mpr fun _ _ => rfl
  rw [startOf, firstOfEach_distinct (spelled.nodup_signatures laid)]
  constructor
  · rw [map_filterMap, found]
    show ((definitionsFrom 0 items).map (structView _)).filterMap id = _
    rw [structs, filterMap_append, some, none, append_nil, preamble, map_map]
    rfl
  · rw [map_filterMap, found]
    show ((definitionsFrom 0 items).map (functionView _)).filterMap id = _
    rw [functions, filterMap_append, some, none, preamble, map_map]
    rfl

end Items

/-! What the entries declare. -/

theorem declared_const (constant : SpelledConst) : ∃ read,
    read.map Declarator.name = constant.definition.names ∧ constant.written.entry.declared =
      [some ⟨true, constant.definition.typeName, read, constant.definition.text⟩] := by
  obtain ⟨read, names, declared⟩ := constant.declared
  refine ⟨read, names, ?_⟩
  rw [Entry.declared, constant.written.statements]
  exact congrArg (fun decl => [decl]) declared

theorem foldl_consts (claimed : List String) {consts : List SpelledConst} {preamble : Preamble}
    (distinct : (preamble.constNames ++
      consts.flatMap fun constant => constant.definition.names).Nodup)
    (free : ∀ name ∈ consts.flatMap fun constant => constant.definition.names, name ∉ claimed) :
    (consts.flatMap fun constant => constant.written.entry.declared).foldl (addDeclared claimed)
        preamble =
      { preamble with consts := preamble.consts ++ consts.map SpelledConst.definition } := by
  induction consts generalizing preamble with
  | nil => simp
  | cons constant rest ih =>
    obtain ⟨read, names, declared⟩ := declared_const constant
    have present : read ≠ [] := by
      rintro rfl
      have empty : constant.written.declarators = [] := map_eq_nil_iff.mp (names.symm.trans map_nil)
      exact constant.written.present empty
    have own : ∀ decl ∈ read, decl.name ∉ claimed ∧ decl.name ∉ preamble.constNames := by
      intro decl mem
      have listed : decl.name ∈ constant.definition.names := by
        rw [← names]
        exact mem_map_of_mem mem
      refine ⟨free _ (mem_append_left _ listed), fun known => ?_⟩
      exact (nodup_append.mp distinct).2.2 _ known _ (mem_append_left _ listed) rfl
    simp_all [addDeclared_const, constNames]

theorem foldl_globals {claimed : List String} {globals : List SpelledGlobal} {preamble : Preamble}
    (distinct : (preamble.globalNames ++ globals.map fun global => global.global.name).Nodup)
    (claims : ∀ global ∈ globals, claimed.contains global.global.name = global.global.claimed) :
    (globals.flatMap fun global => global.written.entry.declared).foldl (addDeclared claimed)
        preamble =
      { preamble with
        globals := preamble.globals ++ globals.map fun global => global.global.unclassified } := by
  induction globals generalizing preamble with
  | nil => simp
  | cons global rest ih =>
    obtain ⟨text, declared⟩ := global.declared
    have new : global.global.name ∉ preamble.globalNames := fun known =>
      (nodup_append.mp distinct).2.2 _ known _ mem_cons_self rfl
    have single : global.written.entry.declared = [some ⟨false, global.global.typeName,
        [⟨global.global.name, global.global.arraySuffix, global.global.initializer⟩], text⟩] := by
      rw [Entry.declared, global.written.statements]
      exact congrArg (fun decl => [decl]) declared
    have value : (if global.global.claimed then none else global.global.initializer) =
        global.global.initializer := by
      split
      next isClaimed => exact (global.claimed isClaimed).symm
      · rfl
    rw [flatMap_cons, single, singleton_append, foldl_cons, addDeclared_global new,
      claims global mem_cons_self, value, ih]
    · simp only [append_assoc]
      rfl
    · rw [globalNames, map_append, append_assoc]
      exact distinct
    · exact (forall_mem_cons.mp claims).2

theorem claims_global {global : SpelledGlobal} (mem : global ∈ spelled.globals) :
    (claimedNames spelled.preamble).contains global.global.name = global.global.claimed := by
  have listed : global.global.name ∈ claimedNames spelled.preamble ↔ global.global.claimed := by
    simp only [claimedNames, preamble, mem_map, mem_filter]
    constructor
    · rintro ⟨other, ⟨⟨stored, isStored, rfl⟩, isClaimed⟩, sameName⟩
      have same : stored = global :=
        inj_on_of_nodup_map spelled.distinctGlobals isStored mem sameName
      rwa [same] at isClaimed
    · grind
  rw [Bool.eq_iff_iff, contains_iff_mem, listed]

theorem unclaimed_const {name : String}
    (mem : name ∈ spelled.consts.flatMap fun constant => constant.definition.names) :
    name ∉ claimedNames spelled.preamble := by
  intro listed
  simp only [claimedNames, preamble, mem_map, mem_filter] at listed
  obtain ⟨other, ⟨⟨global, isStored, rfl⟩, isClaimed⟩, rfl⟩ := listed
  exact spelled.unclaimed global isStored isClaimed mem

/-- The declarations of the rendering add the constants and the globals. -/
theorem foldl_declared {start : Preamble} (noConsts : start.consts = [])
    (noGlobals : start.globals = []) :
    (spelled.entries.flatMap Entry.declared).foldl (addDeclared (claimedNames spelled.preamble))
        start =
      { start with
        consts := spelled.preamble.consts
        globals := spelled.preamble.globals.map GlobalVariable.unclassified } := by
  rw [spelled.flatMap_declared, foldl_append, foldl_consts, foldl_globals]
  · simp only [noConsts, noGlobals, preamble, map_map]
    rfl
  · rw [noGlobals]
    exact spelled.distinctGlobals
  · exact fun global mem => spelled.claims_global mem
  · rw [constNames, noConsts]
    exact spelled.distinctConsts
  · exact fun name mem => spelled.unclaimed_const mem

end SpelledPreamble

/-- A preamble whose parts agree with their stored texts. -/
def WellFormed (preamble : Preamble) : Prop :=
  ∃ spelled : SpelledPreamble, spelled.preamble = preamble

/-- A well formed preamble that is rendered and read again, with the names that are claimed in it,
has the same constants, and the same structures, functions and globals up to their places and
classes, all in the same order. -/
theorem ofSource_render {preamble : Preamble} (wellFormed : WellFormed preamble) :
    ∃ read, (ofSource (render preamble ++ "\n" ++ "#pragma stage fragment")
        (claimedNames preamble)).run.value = .ok read ∧
      read.structs.map StructDefinition.unplaced = preamble.structs.map StructDefinition.unplaced ∧
      read.consts = preamble.consts ∧
      read.globals = preamble.globals.map GlobalVariable.unclassified ∧
      read.functions.map unplaced =
        preamble.functions.map unplaced ∧
      read.macros = [] := by
  obtain ⟨spelled, rfl⟩ := wellFormed
  obtain ⟨items, laid⟩ := spelled.exists_laid
  have unmarked := spelled.unmarked_render
  have ends : (render spelled.preamble ++ "\n").toList.getLast?.all (· == '\n') = true := by
    rw [String.toList_append]
    exact congrArg (Option.all (· == '\n')) List.getLast?_concat
  have opens : (stagePragma.read? "#pragma stage fragment".toList).isSome = true := by
    decide +kernel
  have result := ofSource_file (textOf?_append (textOf?_unmarked unmarked) ends opens) laid.lexemes
    (bindingsClear_of_none (table_unmarked unmarked)) (claimedNames spelled.preamble)
  have declared := laid.declarations "" ""
  rw [String.ofList_toList, String.empty_append, String.append_empty] at declared
  have statements : (statementsFrom 0 [] (visibleFrom 0 items)).map
      (declaration? (render spelled.preamble ++ "\n")) = spelled.entries.flatMap Entry.declared :=
    declared
  rw [macrosOf_unmarked unmarked, readAll_declared, statements,
    spelled.foldl_declared rfl rfl] at result
  obtain ⟨structs, functions⟩ := spelled.startOf_render laid []
  exact ⟨_, result, structs, rfl, rfl, functions, rfl⟩

/-! Parts that are not read back. -/

/-- A comment between array sizes, and a blank that the lexer takes for code at the end of an initial
value. -/
def commented : Preamble :=
  { empty with
    globals :=
      [⟨"float", "w", none, "[2/*two*/]", false, .unclassified⟩,
        ⟨"float", "x", some "1.0\u00a0", "", false, .unclassified⟩] }

/-- The comment and the blank are lost. -/
theorem ofSource_render_commented :
    ((ofSource (render commented ++ "\n" ++ "#pragma stage fragment")
        (claimedNames commented)).run.value.toOption.map Preamble.globals) =
      some [⟨"float", "w", none, "[2]", false, .unclassified⟩,
        ⟨"float", "x", some "1.0", "", false, .unclassified⟩] := by
  decide +kernel

/-! A preamble with parts of all kinds. -/

section Sample

def number (text : String) : Lexeme :=
  ⟨.number, text.toList⟩

def lightStruct : SpelledStruct where
  definition := ⟨"Light", "struct Light \x7b float power; \x7d;", 0, 0⟩
  item :=
    { lead := []
      qualifiers := []
      head := [word "struct", blank, word "Light", blank]
      name := "Light"
      body := [blank, word "float", blank, word "power", punct ';', blank]
      tail := []
      leads := rfl
      leadEnds := rfl
      names := by decide +kernel
      plain := by decide
      isHead := ⟨by decide, by decide, by decide⟩
      nestedBody := nested_plain (by decide) false
      isTail := ⟨by decide, by decide⟩ }
  bare := rfl
  spelled := by decide +kernel
  named := rfl
  unmarked := ⟨by decide +kernel, by decide +kernel⟩

def levelFunction : SpelledFunction where
  definition := ⟨"float", "level", "float x", "highp float level(float x) \x7b return x * A; \x7d", 0, 0⟩
  item :=
    { head := [word "highp", blank, word "float", blank, word "level"]
      precisions := ["highp"]
      returnType := "float"
      name := "level"
      parameters := [word "float", blank, word "x"]
      between := [blank]
      body := [blank, word "return", blank, word "x", blank, punct '*', blank, word "A", punct ';', blank]
      isHead := ⟨by decide, by decide, by decide, by decide, by decide⟩
      nestedParameters := nested_plain (by decide) false
      silent := by decide
      nestedBody := nested_plain (by decide) false }
  spelled := by decide +kernel
  named := rfl
  typed := rfl
  parameters := by decide +kernel
  unmarked := ⟨by decide +kernel, by decide +kernel⟩

theorem plainType_float : PlainType "float" :=
  ⟨by decide +kernel, by decide, by decide⟩

def scaleDeclarator : DeclaratorCode where
  name := "A"
  array := []
  value := [number "1.0"]
  groups := .nil
  onePart := ⟨nested_plain (by decide) false, by decide, by decide⟩

def shareDeclarator : DeclaratorCode where
  name := "B"
  array := []
  value := [word "A"]
  groups := .nil
  onePart := onePart_word "A"

def scaleConst : SpelledConst where
  written :=
    { text := "const float A = 1.0, B = A;"
      isConst := true
      typeName := "float"
      declarators := [scaleDeclarator, shareDeclarator]
      present := cons_ne_nil _ _
      plain := plainType_float
      apart := by decide
      spelled := by decide +kernel
      ends := by decide +kernel
      unmarked := ⟨by decide +kernel, by decide +kernel⟩ }
  constant := rfl
  starts := by decide +kernel

theorem arrayGroups_none : ArrayGroups (lexemes "".toList) := by
  have none : lexemes "".toList = [] := by decide +kernel
  rw [none]
  exact .nil

/-- A global that a parameter claims. -/
def gainGlobal : SpelledGlobal where
  global := ⟨"float", "gain", none, "", true, .uniformBacked⟩
  plain := plainType_float
  named := by decide +kernel
  groups := arrayGroups_none
  bare := by decide +kernel
  valued := by
    intro text member
    cases member
  claimed := fun _ => rfl
  unmarked := ⟨by decide +kernel, by decide +kernel⟩

def pairCode : List Lexeme :=
  [word "float", punct '[', number "2", punct ']', punct '(', word "A", punct ',', word "B", punct ')']

theorem nested_two : Nested false [number "2"] false :=
  nested_plain (by decide) false

theorem nested_pairCode : Nested false pairCode false := by
  have pair : (punct '(', punct ')') ∈ bracketPairs := by decide
  have inside : Nested false [word "A", punct ',', word "B"] false := nested_plain (by decide) false
  exact .plain (by decide) (by decide)
    (.group square_mem nested_two (.group pair inside (.nil false)))

theorem initialValue_pair : InitialValue "float[2](A, B)" := by
  have code : (lexemes "float[2](A, B)".toList).filter isCode = pairCode := by decide +kernel
  exact
    { starts := by decide +kernel
      ends := by decide +kernel
      trimmed := by decide +kernel
      bare := by decide +kernel
      onePart := by
        rw [code]
        exact ⟨nested_pairCode, by decide, by decide⟩
      apart := by
        rw [code]
        decide }

theorem arrayGroups_pair : ArrayGroups (lexemes "[2]".toList) := by
  have shape : lexemes "[2]".toList = [punct '[', number "2", punct ']'] := by decide +kernel
  rw [shape]
  exact .group nested_two .nil

def tintGlobal : SpelledGlobal where
  global := ⟨"float", "tint", some "float[2](A, B)", "[2]", false, .stageLocal⟩
  plain := plainType_float
  named := by decide +kernel
  groups := arrayGroups_pair
  bare := by decide +kernel
  valued := by
    intro text member
    cases member
    exact initialValue_pair
  claimed := by
    intro isClaimed
    cases isClaimed
  unmarked := ⟨by decide +kernel, by decide +kernel⟩

def samplePreamble : SpelledPreamble where
  structs := [lightStruct]
  consts := [scaleConst]
  globals := [gainGlobal, tintGlobal]
  functions := [levelFunction]
  distinctStructs := by decide
  distinctConsts := by decide
  distinctGlobals := by decide
  distinctFunctions := nodup_singleton _
  unclaimed := by
    intro global member isClaimed
    simp only [mem_cons, not_mem_nil, or_false] at member
    rcases member with rfl | rfl
    · decide
    · cases isClaimed

theorem ofSource_render_sample :
    ∃ read, (ofSource (render samplePreamble.preamble ++ "\n" ++ "#pragma stage fragment")
        ["gain"]).run.value = .ok read ∧
      read.structs.map StructDefinition.unplaced =
        samplePreamble.preamble.structs.map StructDefinition.unplaced ∧
      read.consts = [⟨"float", ["A", "B"], "const float A = 1.0, B = A;"⟩] ∧
      read.globals = [⟨"float", "gain", none, "", true, .unclassified⟩,
        ⟨"float", "tint", some "float[2](A, B)", "[2]", false, .unclassified⟩] ∧
      read.functions.map unplaced =
        samplePreamble.preamble.functions.map unplaced ∧
      read.macros = [] :=
  ofSource_render ⟨samplePreamble, rfl⟩

end Sample

end WebShader.Preamble
