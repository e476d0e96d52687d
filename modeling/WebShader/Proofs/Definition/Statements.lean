import WebShader.Proofs.Definition.Relocation
import WebShader.Proofs.Run

/-!
Contract: the statements of a preamble, and what reading one of them adds.

Owns: statements of code in two parts, the code behind the last statement, the
growth of a preamble, and statements that add nothing.
-/

namespace WebShader.Token

open List

/-! Depth. -/

def depthOf (depth : Int) (piece : Lexeme) : Int :=
  if opensGroup piece then depth + 1 else if closesGroup piece then depth - 1 else depth

theorem depthOf_word (depth : Int) (name : String) : depthOf depth (word name) = depth := by
  rfl

/-- The code of nested lexemes leaves the depth as it was. -/
theorem Nested.depth {onLine after : Bool} {pieces : List Lexeme}
    (nested : Nested onLine pieces after) (depth : Int) :
    (codePieces onLine pieces).foldl depthOf depth = depth := by
  induction nested generalizing depth with
  | nil onLine => rfl
  | @plain onLine after piece rest notOpener notCloser _ ih => grind [codePieces, depthOf]
  | @group onLine after opener closer inside rest pair inner _ innerHypothesis ih =>
    obtain ⟨opened, closed⟩ := directiveAfter_pair pair onLine
    have brackets : opensGroup opener ∧ opensGroup closer = false ∧
        closesGroup closer ∧ opener.kind.isTrivia = false ∧
        closer.kind.isTrivia = false := by
      rcases mem_bracketPairs.mp pair with same | same | same <;> cases same <;> decide
    obtain ⟨opens, notOpener, closes, openCode, closeCode⟩ := brackets
    rw [codePieces, opened, codePieces_append, inner.state, codePieces]
    cases onLine with
    | true => grind
    | false => simp_all [depthOf]

end WebShader.Token

namespace WebShader.Preamble

open List Token

variable {after before preamble : Preamble} (depth : Int)

theorem isPunctIn_lexeme (token : Token) (texts : List String) :
    token.isPunctIn texts = (texts.map fun text => (⟨.punct, text.toList⟩ : Lexeme)).contains
      (lexeme token) := by
  induction texts with
  | nil => simp [isPunctIn]
  | cons text rest ih =>
    have apart : token.isPunctIn (text :: rest) = (token.isPunct text || token.isPunctIn rest) := by
      exact Bool.and_or_distrib_left _ _ _
    rw [apart, ih, isPunct_lexeme, map_cons, contains_cons]

theorem any_beq (pairs : List (Lexeme × Lexeme)) (side : Lexeme × Lexeme → Lexeme) (piece : Lexeme) :
    pairs.any (side · == piece) = (pairs.map side).contains piece := by grind

theorem depthAfter_lexeme (token : Token) :
    depthAfter depth token = depthOf depth (lexeme token) := by
  have opens : opensBracket token = opensGroup (lexeme token) := by
    rw [opensBracket, isPunctIn_lexeme, opensGroup, any_beq]
    rfl
  have closes : closesBracket token = closesGroup (lexeme token) := by
    rw [closesBracket, isPunctIn_lexeme, closesGroup, any_beq]
    rfl
  rw [depthAfter, depthOf, opens, closes]

theorem foldl_depthAfter (tokens : List Token) :
    tokens.foldl depthAfter depth = (tokens.map lexeme).foldl depthOf depth := by
  induction tokens generalizing depth with
  | nil => rfl
  | cons token rest ih =>
    rw [foldl_cons, ih, depthAfter_lexeme, map_cons, foldl_cons]

/-! Statements in parts. -/

/-- The tokens behind the last statement. -/
def unfinished (depth : Int) (statement : List Token) : List Token → List Token
  | [] => statement.reverse
  | token :: rest =>
    let after := depthAfter depth token
    if after == 0 && token.isPunct ";" then unfinished after [] rest
    else unfinished after (token :: statement) rest

theorem statementsFrom_append (part tokens others : List Token) :
    statementsFrom depth part (tokens ++ others) = statementsFrom depth part tokens ++
        statementsFrom (tokens.foldl depthAfter depth) (unfinished depth part tokens).reverse others := by
  induction tokens generalizing depth part with
  | nil => simp [statementsFrom, unfinished]
  | cons token rest ih => grind [statementsFrom, unfinished]

/-- Statements of which the first was begun before. -/
def continuing (begun : List Token) : List (List Token) → List (List Token)
  | [] => []
  | first :: rest => (begun ++ first) :: rest

theorem statementsFrom_part (part begun tokens : List Token) :
    statementsFrom depth (part ++ begun.reverse) tokens =
      continuing begun (statementsFrom depth part tokens) := by
  induction tokens generalizing depth part with
  | nil => rfl
  | cons token rest ih => grind [statementsFrom, continuing]

/-! What a statement adds. -/

def globalNames (preamble : Preamble) : List String :=
  preamble.globals.map GlobalVariable.name

/-- Reading a statement adds constants and globals at the end and leaves the rest. -/
structure Grows (before after : Preamble) : Prop where
  functions : after.functions = before.functions
  structs : after.structs = before.structs
  macros : after.macros = before.macros
  consts : before.consts <+: after.consts
  globals : before.globals <+: after.globals

theorem Grows.refl (preamble : Preamble) : Grows preamble preamble :=
  ⟨rfl, rfl, rfl, List.prefix_refl _, List.prefix_refl _⟩

theorem Grows.trans {first second third : Preamble} (early : Grows first second)
    (late : Grows second third) : Grows first third where
  functions := late.functions.trans early.functions
  structs := late.structs.trans early.structs
  macros := late.macros.trans early.macros
  consts := early.consts.trans late.consts
  globals := early.globals.trans late.globals

/-- The names that a declaration adds are there: those of constants among the constants, all others
and those that are claimed among the globals. -/
def Knows (claimed : List String) (declaration : Declaration) (preamble : Preamble) : Prop :=
  ∀ declarator ∈ declaration.declarators, (declaration.isConst = true → declarator.name ∉ claimed →
      declarator.name ∈ preamble.constNames) ∧
    (declaration.isConst = false ∨ declarator.name ∈ claimed →
      declarator.name ∈ preamble.globalNames)

theorem Grows.constNames (grows : Grows before after) {name : String}
    (known : name ∈ before.constNames) : name ∈ after.constNames := by
  obtain ⟨more, shape⟩ := grows.consts
  rw [Preamble.constNames, ← shape, flatMap_append]
  exact mem_append_left _ known

theorem Grows.globalNames (grows : Grows before after) {name : String}
    (known : name ∈ before.globalNames) : name ∈ after.globalNames := by
  obtain ⟨more, shape⟩ := grows.globals
  rw [Preamble.globalNames, ← shape, map_append]
  exact mem_append_left _ known

theorem Knows.grows {claimed : List String} {declaration : Declaration}
    (knows : Knows claimed declaration before) (grows : Grows before after) :
    Knows claimed declaration after := by
  intro decl mem
  obtain ⟨constant, global⟩ := knows decl mem
  exact ⟨fun isConst free => grows.constNames (constant isConst free),
    fun mutable => grows.globalNames (global mutable)⟩

section Additions

variable (claimed : List String) (typeName : String)

theorem addGlobal_known {decl : Declarator} (known : decl.name ∈ preamble.globalNames) :
    (addGlobal claimed typeName preamble decl).value = preamble := by
  have taken : (preamble.globals.map GlobalVariable.name).contains decl.name :=
    contains_iff_mem.mpr known
  rw [addGlobal, if_pos taken]
  rfl

theorem addGlobal_grows (preamble : Preamble) (decl : Declarator) :
    Grows preamble (addGlobal claimed typeName preamble decl).value ∧
      decl.name ∈ (addGlobal claimed typeName preamble decl).value.globalNames := by
  rw [addGlobal]
  split
  next known => exact ⟨.refl _, contains_iff_mem.mp known⟩
  · refine ⟨⟨rfl, rfl, rfl, List.prefix_refl _, List.prefix_append _ _⟩, ?_⟩
    simp [globalNames]

theorem addGlobals_grows (preamble : Preamble) (decls : List Declarator) :
    Grows preamble (decls.foldlM (addGlobal claimed typeName) preamble).value ∧
      ∀ decl ∈ decls, decl.name ∈
        (decls.foldlM (addGlobal claimed typeName) preamble).value.globalNames := by
  induction decls generalizing preamble with
  | nil => exact ⟨.refl _, by simp⟩
  | cons decl rest ih =>
    obtain ⟨first, here⟩ := addGlobal_grows claimed typeName preamble decl
    obtain ⟨later, there⟩ := ih (addGlobal claimed typeName preamble decl).value
    refine ⟨first.trans later, fun other mem => ?_⟩
    rcases mem_cons.mp mem with rfl | inRest
    · exact later.globalNames here
    · exact there other inRest

theorem addGlobals_known {decls : List Declarator}
    (known : ∀ decl ∈ decls, decl.name ∈ preamble.globalNames) :
    (decls.foldlM (addGlobal claimed typeName) preamble).value = preamble := by
  induction decls with
  | nil => rfl
  | cons decl rest ih => simp_all [addGlobal_known]

end Additions

/-- The declarators of a constant declaration that become constants. -/
def keptOf (claimed : List String) (preamble : Preamble) (declaration : Declaration) :
    List Declarator :=
  declaration.declarators.filter fun declarator =>
    !claimed.contains declarator.name && !preamble.constNames.contains declarator.name

/-- The declarators of a constant declaration that become globals. -/
def takenOf (claimed : List String) (declaration : Declaration) : List Declarator :=
  declaration.declarators.filter fun declarator => claimed.contains declarator.name

section Constants

variable (claimed : List String) (preamble : Preamble) (declaration : Declaration)

def withClaimed : Preamble :=
  ((takenOf claimed declaration).foldlM (addGlobal claimed declaration.typeName) preamble).value

def constantOf : ConstDefinition :=
  { typeName := declaration.typeName
    names := (keptOf claimed preamble declaration).map Declarator.name
    text :=
      if (keptOf claimed preamble declaration).length == declaration.declarators.length then
        declaration.text
      else constText declaration.typeName (keptOf claimed preamble declaration) }

theorem addConst_value :
    (addConst claimed preamble declaration).value =
      if keptOf claimed preamble declaration = [] then withClaimed claimed preamble declaration
      else { withClaimed claimed preamble declaration with
        consts := (withClaimed claimed preamble declaration).consts ++
          [constantOf claimed preamble declaration] } := by
  have unfolded : (addConst claimed preamble declaration).value =
      (if (keptOf claimed preamble declaration).isEmpty then
        pure (withClaimed claimed preamble declaration)
      else pure { withClaimed claimed preamble declaration with
        consts := (withClaimed claimed preamble declaration).consts ++
          [constantOf claimed preamble declaration] } : Noted Preamble).value := rfl
  by_cases empty : keptOf claimed preamble declaration = []
  · simp_all
  simp_all

theorem addConst_grows (isConst : declaration.isConst) :
    Grows preamble (addConst claimed preamble declaration).value ∧
      Knows claimed declaration (addConst claimed preamble declaration).value := by
  obtain ⟨grown, taken⟩ : Grows preamble (withClaimed claimed preamble declaration) ∧ _ :=
    addGlobals_grows claimed declaration.typeName preamble (takenOf claimed declaration)
  have added : Grows (withClaimed claimed preamble declaration)
      (addConst claimed preamble declaration).value := by
    rw [addConst_value]
    split
    · exact .refl _
    · exact ⟨rfl, rfl, rfl, List.prefix_append _ _, List.prefix_refl _⟩
  have grows := grown.trans added
  refine ⟨grows, fun decl mem => ⟨fun _ free => ?_, fun mutable => ?_⟩⟩
  · by_cases known : decl.name ∈ preamble.constNames
    · exact grows.constNames known
    · have kept : decl ∈ keptOf claimed preamble declaration := by
        simp [keptOf, mem, free, known]
      rw [addConst_value, if_neg (ne_nil_of_mem kept), constNames, flatMap_append]
      refine mem_append_right _ ?_
      simpa [constantOf] using ⟨decl, kept, rfl⟩
  · have isClaimed : decl.name ∈ claimed := by
      simpa [isConst] using mutable
    have listed : decl ∈ takenOf claimed declaration := by
      simp [takenOf, mem, isClaimed]
    exact added.globalNames (taken decl listed)

theorem addConst_known (isConst : declaration.isConst)
    (knows : Knows claimed declaration preamble) :
    (addConst claimed preamble declaration).value = preamble := by
  have none : keptOf claimed preamble declaration = [] := by
    refine filter_eq_nil_iff.mpr fun decl mem => ?_
    by_cases isClaimed : decl.name ∈ claimed
    · simp [isClaimed]
    · simp [(knows decl mem).1 isConst isClaimed]
  rw [addConst_value, if_pos none]
  refine addGlobals_known claimed declaration.typeName fun decl mem => ?_
  obtain ⟨listed, isClaimed⟩ := mem_filter.mp mem
  exact (knows decl listed).2 (.inr (contains_iff_mem.mp isClaimed))

end Constants

/-- Reading a statement makes a preamble grow until it knows what the statement declares. -/
theorem addStatement_grows (source : String) (claimed : List String) (stmt : List Token)
    (preamble : Preamble) :
    Grows preamble (addStatement source claimed preamble stmt).value ∧
      ∀ declaration, declaration? source stmt = some declaration →
        Knows claimed declaration (addStatement source claimed preamble stmt).value := by
  rw [addStatement]
  cases declared : declaration? source stmt with
  | none => exact ⟨.refl _, fun declaration other => by cases other⟩
  | some declaration =>
    dsimp only
    cases isConst : declaration.isConst with
    | true => grind [addConst_grows]
    | false =>
      obtain ⟨grows, known⟩ :=
        addGlobals_grows claimed declaration.typeName preamble declaration.declarators
      refine ⟨grows, fun other same => ?_⟩
      obtain rfl := Option.some.inj same
      exact fun decl mem =>
        ⟨fun constant => absurd constant (by simp [isConst]), fun _ => known decl mem⟩

/-- A statement whose names are known adds nothing. -/
theorem addStatement_known {source : String} {claimed : List String} {stmt : List Token}
    (knows : ∀ declaration, declaration? source stmt = some declaration →
      Knows claimed declaration preamble) :
    (addStatement source claimed preamble stmt).value = preamble := by
  rw [addStatement]
  cases declared : declaration? source stmt with
  | none => rfl
  | some declaration =>
    have known := knows declaration declared
    dsimp only
    cases isConst : declaration.isConst with
    | true => exact addConst_known claimed preamble declaration isConst known
    | false =>
      exact addGlobals_known claimed declaration.typeName fun decl mem =>
        (known decl mem).2 (.inl isConst)

end WebShader.Preamble
