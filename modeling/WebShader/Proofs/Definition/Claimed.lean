import Mathlib.Data.List.Nodup
import WebShader.Proofs.Definition.Extraction

/-!
Contract: what becomes of claimed names in a preamble.

Owns: the invariant that claimed names are globals without an initial value and
never constants, kept by every statement; and the constants that a statement
with claimed names still adds.
-/

namespace WebShader.Preamble

open List Token

variable {claimed : List String} {text name : String} {preamble start : Preamble}
  {statement : List Token} {declaration : Declaration}

/-- Globals have names of their own, are marked if and only if they are claimed, and have no initial
value then; constants are not claimed. -/
structure Separates (claimed : List String) (preamble : Preamble) : Prop where
  distinct : preamble.globalNames.Nodup
  marked : ∀ target ∈ preamble.globals, (target.claimed = true ↔ target.name ∈ claimed) ∧
    (target.claimed = true → target.initializer = none)
  constants : ∀ constant ∈ preamble.consts, ∀ name ∈ constant.names, name ∉ claimed

/-! The invariant. -/

theorem Separates.addGlobal (separates : Separates claimed preamble) (typeName : String)
    (declarator : Declarator) :
    Separates claimed (addGlobal claimed typeName preamble declarator).value := by
  rw [Preamble.addGlobal]
  split
  · exact separates
  next unknown =>
    refine ⟨?_, fun target listed => ?_, separates.constants⟩
    · have new : declarator.name ∉ preamble.globalNames := by simpa [globalNames] using unknown
      have names : (preamble.globalNames ++ [declarator.name]).Nodup :=
        nodup_append.mpr ⟨separates.distinct, by simp, by grind⟩
      simpa [globalNames] using names
    · rcases mem_append.mp listed with earlier | here
      · exact separates.marked target earlier
      · obtain rfl := mem_singleton.mp here
        simp +contextual

theorem Separates.addGlobals (separates : Separates claimed preamble) (typeName : String)
    (declarators : List Declarator) :
    Separates claimed (declarators.foldlM (Preamble.addGlobal claimed typeName) preamble).value :=
  foldlM_keeps (fun _ declarator kept => kept.addGlobal typeName declarator) declarators separates

theorem mem_keptOf {declarator : Declarator} :
    declarator ∈ keptOf claimed preamble declaration ↔ declarator ∈ declaration.declarators ∧
      declarator.name ∉ claimed ∧ declarator.name ∉ preamble.constNames := by
  simp [keptOf]

theorem Separates.addConst (separates : Separates claimed preamble) (declaration : Declaration) :
    Separates claimed (addConst claimed preamble declaration).value := by
  have globals := separates.addGlobals declaration.typeName (takenOf claimed declaration)
  rw [addConst_value]
  split
  · exact globals
  · refine ⟨globals.distinct, globals.marked, fun constant listed name named => ?_⟩
    rcases mem_append.mp listed with earlier | here
    · exact globals.constants constant earlier name named
    · obtain rfl := mem_singleton.mp here
      obtain ⟨declarator, kept, rfl⟩ := mem_map.mp named
      exact (mem_keptOf.mp kept).2.1

theorem Separates.addStatement (separates : Separates claimed preamble) (text : String)
    (statement : List Token) :
    Separates claimed (addStatement text claimed preamble statement).value := by
  rw [Preamble.addStatement]
  split
  · exact separates
  · split
    · exact separates.addConst _
    · exact separates.addGlobals _ _

theorem Separates.readAll (separates : Separates claimed start) (text : String)
    (statements : List (List Token)) : Separates claimed (readAll text claimed statements start) := by
  induction statements generalizing start with
  | nil => exact separates
  | cons statement rest ih => exact ih (separates.addStatement text statement)

/-! The constants so far. -/

def constantsOf (claimed : List String) (text : String) (statement : List Token) : List String :=
  match declaration? text statement with
  | none => []
  | some declaration =>
    if declaration.isConst then
      (declaration.declarators.map Declarator.name).filter fun name => !claimed.contains name
    else []

theorem addGlobals_consts (typeName : String) (declarators : List Declarator) :
    (declarators.foldlM (addGlobal claimed typeName) preamble).value.consts = preamble.consts := by
  induction declarators generalizing preamble with
  | nil => rfl
  | cons declarator rest ih =>
    rw [foldlM_cons, Noted.value_bind, ih, addGlobal]
    split <;> rfl

theorem mem_constNames_addConst (isConst : declaration.isConst) :
    name ∈ (addConst claimed preamble declaration).value.constNames ↔ name ∈ preamble.constNames ∨
      name ∈ (declaration.declarators.map Declarator.name).filter fun name =>
        !claimed.contains name := by
  obtain ⟨grows, knows⟩ := addConst_grows claimed preamble declaration isConst
  refine ⟨fun named => ?_, ?_⟩
  · rw [addConst_value] at named
    split at named
    · rw [constNames, withClaimed, addGlobals_consts] at named
      exact .inl named
    · rw [constNames, withClaimed, addGlobals_consts, flatMap_append] at named
      rcases mem_append.mp named with earlier | here
      · exact .inl earlier
      · obtain ⟨declarator, kept, rfl⟩ : ∃ declarator ∈ keptOf claimed preamble declaration,
            declarator.name = name := by simpa [constantOf] using here
        obtain ⟨listed, free, -⟩ := mem_keptOf.mp kept
        exact .inr (mem_filter.mpr ⟨mem_map_of_mem listed, by simpa using free⟩)
  · rintro (earlier | here)
    · exact grows.constNames earlier
    · obtain ⟨listed, free⟩ := mem_filter.mp here
      obtain ⟨declarator, declared, rfl⟩ := mem_map.mp listed
      exact (knows declarator declared).1 isConst (by simpa using free)

theorem mem_constNames_addStatement :
    name ∈ (addStatement text claimed preamble statement).value.constNames ↔
      name ∈ preamble.constNames ∨ name ∈ constantsOf claimed text statement := by
  rw [addStatement, constantsOf]
  cases declaration? text statement with
  | none => simp
  | some declaration =>
    dsimp only
    cases isConst : declaration.isConst with
    | true => exact mem_constNames_addConst isConst
    | false => simp [constNames, addGlobals_consts]

theorem mem_constNames_readAll (statements : List (List Token)) :
    name ∈ (readAll text claimed statements start).constNames ↔
      name ∈ start.constNames ∨ name ∈ statements.flatMap (constantsOf claimed text) := by
  induction statements generalizing start with
  | nil => simp [readAll]
  | cons statement rest ih =>
    rw [readAll, foldl_cons, ← readAll, ih, mem_constNames_addStatement, flatMap_cons, mem_append,
      or_assoc]

/-- The declarators of a constant declaration that are neither claimed nor declared before. -/
def freeDeclarators (claimed : List String) (text : String) (before : List (List Token))
    (declaration : Declaration) : List Declarator :=
  declaration.declarators.filter fun declarator =>
    !claimed.contains declarator.name &&
      !(before.flatMap (constantsOf claimed text)).contains declarator.name

theorem keptOf_readAll (none : start.consts = []) (before : List (List Token)) :
    keptOf claimed (readAll text claimed before start) declaration =
      freeDeclarators claimed text before declaration := by
  refine filter_congr fun declarator _ => ?_
  have same : (readAll text claimed before start).constNames.contains declarator.name =
      (before.flatMap (constantsOf claimed text)).contains declarator.name := by
    rw [Bool.eq_iff_iff, contains_iff_mem, mem_constNames_readAll, constNames, none]
    simp
  rw [same]

/-- A constant declaration adds its free declarators as one constant. -/
theorem constant_mem_readAll (none : start.consts = []) {before : List (List Token)}
    (after : List (List Token)) (declared : declaration? text statement = some declaration)
    (isConst : declaration.isConst)
    (present : freeDeclarators claimed text before declaration ≠ []) :
    constantOf claimed (readAll text claimed before start) declaration ∈
      (readAll text claimed (before ++ statement :: after) start).consts := by
  rw [readAll_append]
  refine (readAll_grows after _).1.consts.subset ?_
  show _ ∈ (addStatement text claimed (readAll text claimed before start) statement).value.consts
  rw [addStatement, declared]
  simp only [isConst, if_true]
  rw [addConst_value, if_neg (by rwa [keptOf_readAll none])]
  exact mem_append_right _ mem_cons_self

/-! The preamble of a source. -/

/-- A preamble is read from the file-scope statements in front of the first stage, if there is one. -/
theorem ofSource_ok {source : String}
    (returned : (ofSource source claimed).run.value = .ok preamble) :
    textOf? source = none ∧ preamble = empty ∨
      ∃ text definitions start, textOf? source = some text ∧
        Definition.scan (lex text) = .ok definitions ∧ start.consts = [] ∧ start.globals = [] ∧
        preamble = readAll text claimed
          (statements (lex text) (masksOf definitions (Binding.table text).value)) start := by
  cases cut : textOf? source with
  | none =>
    rw [ofSource, cut] at returned
    cases returned
    exact .inl ⟨rfl, rfl⟩
  | some text =>
    cases scanned : Definition.scan (lex text) with
    | error fault =>
      rw [ofSource, cut] at returned
      simp only [scanned] at returned
      cases returned
    | ok definitions =>
      rw [ofSource_value cut scanned] at returned
      cases returned
      exact .inr ⟨text, definitions, _, rfl, scanned, rfl, rfl, rfl⟩

/-- In a preamble that is read, the globals have names of their own, are marked if and only if they
are claimed, and have no initial value then. No constant is claimed. Every claimed declarator of a
file-scope declaration is one marked global, and the others of a constant declaration, if they are
no constants yet, are one constant with their names and initial values. -/
theorem ofSource_separates_claimed {source : String} {claimed : List String} {preamble : Preamble}
    (returned : (ofSource source claimed).run.value = .ok preamble) :
    (preamble.globals.map GlobalVariable.name).Nodup ∧
    (∀ target ∈ preamble.globals, (target.claimed = true ↔ target.name ∈ claimed) ∧
      (target.claimed = true → target.initializer = none)) ∧
    (∀ constant ∈ preamble.consts, ∀ name ∈ constant.names, name ∉ claimed) ∧
    ∀ text, textOf? source = some text →
      ∃ definitions, Definition.scan (lex text) = .ok definitions ∧
        ∀ before statement after declaration,
          statements (lex text) (masksOf definitions (Binding.table text).value) =
            before ++ statement :: after →
          declaration? text statement = some declaration →
          (∀ declarator ∈ declaration.declarators, declarator.name ∈ claimed →
            (preamble.globals.map GlobalVariable.name).count declarator.name = 1 ∧
            ∃ target ∈ preamble.globals, target.name = declarator.name ∧ target.claimed = true) ∧
          (declaration.isConst →
            let free := freeDeclarators claimed text before declaration
            free ≠ [] →
            (⟨declaration.typeName, free.map Declarator.name,
              if free.length = declaration.declarators.length then declaration.text
              else constText declaration.typeName free⟩ : ConstDefinition) ∈ preamble.consts) := by
  rcases ofSource_ok returned with
    ⟨cut, rfl⟩ | ⟨text, definitions, start, cut, scanned, none, bare, rfl⟩
  · exact ⟨by decide, by simp [empty], by simp [empty], by simp [cut]⟩
  have separates : Separates claimed start :=
    ⟨by simp [globalNames, bare], by simp [bare], by simp [none]⟩
  obtain ⟨distinct, marked, constants⟩ := separates.readAll text
    (statements (lex text) (masksOf definitions (Binding.table text).value))
  refine ⟨distinct, marked, constants, fun other same => ?_⟩
  obtain rfl := Option.some.inj (cut.symm.trans same)
  refine ⟨definitions, scanned, fun before statement after declaration parts declared => ⟨?_, ?_⟩⟩
  · intro declarator listed isClaimed
    have among : statement ∈
        statements (lex text) (masksOf definitions (Binding.table text).value) := by
      simp [parts]
    have knows : Knows claimed declaration _ :=
      (readAll_grows _ start).2 statement among declaration declared
    have known := (knows declarator listed).2 (.inr isClaimed)
    obtain ⟨target, present, named⟩ := mem_map.mp known
    exact ⟨count_eq_one_of_mem distinct known, target, present, named,
      (marked target present).1.mpr (named ▸ isClaimed)⟩
  · intro isConst free present
    have added := constant_mem_readAll none after declared isConst present
    rw [constantOf, keptOf_readAll none, ← parts] at added
    simpa using added

/-- A claimed name between two others in a constant declaration, and declared once more. -/
def mixedSource : String :=
  "const float a = 1.0, b = 2.0, c = 3.0;\nfloat b = 4.0;\n#pragma stage vertex\n"

theorem ofSource_separates_claimed_mixed :
    ∃ preamble, (ofSource mixedSource ["b"]).run.value = .ok preamble ∧
      (preamble.globals.map GlobalVariable.name).Nodup ∧
      preamble.globals.map GlobalVariable.declaration = ["float b;"] ∧
      preamble.consts = [⟨"float", ["a", "c"], "const float a = 1.0, c = 3.0;"⟩] := by
  have read : (ofSource mixedSource ["b"]).run.value =
      .ok ⟨[], [], [], [⟨"float", ["a", "c"], "const float a = 1.0, c = 3.0;"⟩],
        [⟨"float", "b", none, "", true, .unclassified⟩]⟩ := by
    decide +kernel
  exact ⟨_, read, (ofSource_separates_claimed read).1, by decide +kernel, rfl⟩

end WebShader.Preamble
