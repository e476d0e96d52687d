import Mathlib.Data.List.Basic
import WebShader.Proofs.Token.Nesting

/-!
Contract: what the scan for definitions makes of one piece of a file.

Owns: code that opens no definition, and the definition that the scan finds where
a function or a structure stands.

Does not own: how the pieces of a file follow each other; that is `FileScope`.

Each statement holds wherever the piece stands: between any tokens before it and
any tokens behind it.
-/

namespace WebShader.Definition

open List Token

variable {atStart : Bool} {last : Lexeme} {front others pieces : List Lexeme}
  {afterParameters rest : List Placed} {qualifiers : List String}
  {after before body further head inside tail tokens : List Token} {parametersClose : Nat}
  {entry : Placed} {brace closer closingBrace opener semicolon token : Token}
  {code : List Placed} {start : Nat}

/-! The front of code, read from its lexemes. -/

def pieceOf (entry : Placed) : Lexeme :=
  lexeme entry.token

/-- Whether two identifiers open the code and pass a test with the lexeme behind them. -/
def opensWith (test : Lexeme → Lexeme → Bool) : List Lexeme → Bool
  | first :: second :: third :: _ =>
    first.kind == .ident && second.kind == .ident && test first third
  | _ => false

def startsStruct (code : List Lexeme) : Bool :=
  opensWith (fun first third => first == word "struct" && third.text == ['\x7b']) code

def isPrecision (piece : Lexeme) : Bool :=
  precisionQualifiers.contains (String.ofList piece.text)

def startsFunction (code : List Lexeme) : Bool :=
  opensWith (fun first third => third.text == ['('] &&
    !storageQualifiers.contains (String.ofList first.text)) (code.dropWhile isPrecision)

/-- Whether a structure opens the code, or a function where a statement starts. -/
def opensDefinition (atStart : Bool) (code : List Lexeme) : Bool :=
  startsStruct code || atStart && startsFunction code

def endsStatement (piece : Lexeme) : Bool :=
  piece == punct ';' || piece == punct '\x7d'

theorem text_beq (token : Token) (text : String) :
    (token.text == text) = ((lexeme token).text == text.toList) := by
  rw [Bool.eq_iff_iff, beq_iff_eq, beq_iff_eq, lexeme, ← String.toList_inj]

theorem ofList_beq (letters : List Char) (text : String) :
    (String.ofList letters == text) = (letters == text.toList) := by
  rw [Bool.eq_iff_iff, beq_iff_eq, beq_iff_eq, ← String.toList_inj, String.toList_ofList]

theorem isWord_beq (token : Token) (name : String) :
    token.isWord name = (lexeme token == word name) := by
  rw [isWord, text_beq, Bool.eq_iff_iff, Bool.and_eq_true, beq_iff_eq, beq_iff_eq, beq_iff_eq,
    word, lexeme, Lexeme.mk.injEq]

theorem textAt_eq (code : List Placed) (index : Nat) :
    textAt code index =
      ((code.map pieceOf)[index]?.map fun piece => String.ofList piece.text).getD "" := by
  rw [textAt, getElem?_map, Option.map_map]
  simp only [Function.comp_def, pieceOf, lexeme, String.ofList_toList]

theorem isIdentAt_eq (code : List Placed) (index : Nat) :
    isIdentAt code index = (code.map pieceOf)[index]?.any (·.kind == .ident) := by
  rw [getElem?_map, Option.any_map]
  rfl

theorem precisionCount_eq (code : List Placed) :
    precisionCount code = ((code.map pieceOf).takeWhile isPrecision).length := by
  rw [precisionCount, takeWhile_map, length_map]
  simp only [Function.comp_def, isPrecision, pieceOf, lexeme, String.ofList_toList]

theorem opensStruct_eq (code : List Placed) : opensStruct code = startsStruct (code.map pieceOf) := by
  match code with
  | [] => rfl
  | [first] => simp [opensStruct, startsStruct, opensWith, isIdentAt]
  | [first, second] => simp [opensStruct, startsStruct, opensWith, textAt]
  | first :: second :: third :: rest =>
    have named : first.token.isWord "struct" =
        (first.token.isIdent && lexeme first.token == word "struct") := by
      rw [← isWord_beq, isWord, isIdent, ← Bool.and_assoc, Bool.and_self]
    have brace := text_beq third.token "\x7b"
    simp only [opensStruct, startsStruct, opensWith, isIdentAt, textAt, head?_cons, getElem?_cons_succ, getElem?_cons_zero, Option.any_some,
      Option.map_some, Option.getD_some, named, brace, Bool.and_assoc, Bool.and_left_comm]
    rfl

theorem opensFunction_eq (code : List Placed) :
    opensFunction code = startsFunction (code.map pieceOf) := by
  have cut := takeWhile_append_dropWhile (p := isPrecision) (l := code.map pieceOf)
  have behind (index : Nat) : (code.map pieceOf)[precisionCount code + index]? =
      ((code.map pieceOf).dropWhile isPrecision)[index]? := by
    rw [precisionCount_eq]
    grind
  simp only [opensFunction, textAt_eq, isIdentAt_eq, behind, startsFunction, opensWith]
  rw [← Nat.add_zero (precisionCount code), behind]
  match (code.map pieceOf).dropWhile isPrecision with
  | [] => simp
  | [first] => simp
  | [first, second] => simp
  | first :: second :: third :: rest =>
    simp [ofList_beq, Bool.and_assoc]

theorem startsStruct_other {first : Lexeme} (other : (first == word "struct") = false)
    (rest : List Lexeme) : startsStruct (first :: rest) = false := by
  rcases rest with _ | ⟨second, _ | ⟨third, more⟩⟩
  · rfl
  · rfl
  · simp [startsStruct, opensWith, other]

/-! Code that opens nothing. -/

theorem step_other (nothing : opensDefinition atStart (pieceOf entry :: rest.map pieceOf) = false) :
    step tokens atStart entry rest = otherStep tokens entry rest := by
  simp_all [opensDefinition, step, opensStruct_eq, opensFunction_eq]

theorem scanFrom_plain (passes : step tokens atStart entry rest = otherStep tokens entry rest)
    (plain : pieceOf entry ≠ punct '\x7b') :
    scanFrom tokens atStart (entry :: rest) =
      scanFrom tokens (endsStatement (pieceOf entry)) rest := by
  have notBrace : entry.token.isPunct "\x7b" = false := by
    rw [isPunct_lexeme, beq_eq_false_iff_ne]
    exact plain
  have ends : entry.token.isPunctIn [";", "\x7d"] = endsStatement (pieceOf entry) := by
    have either : entry.token.isPunctIn [";", "\x7d"] =
        (entry.token.isPunct ";" || entry.token.isPunct "\x7d") := by
      simp only [isPunctIn, contains_cons, contains_nil, Bool.or_false]
      exact Bool.and_or_distrib_left _ _ _
    rw [either, isPunct_lexeme, isPunct_lexeme]
    rfl
  rw [scanFrom, passes, otherStep, if_neg (by simp [notBrace]), ends]

/-- A group of code is closed at its closing bracket, and the code behind it is left. -/
theorem closeAt_group (whole : tokens = before ++ opener :: (inside ++ closer :: after))
    (pair : (lexeme opener, lexeme closer) ∈ bracketPairs)
    (nested : Nested false (inside.map lexeme) false) {passed : List Placed} {index : Nat}
    (shape : code = passed ++ codeFrom false before.length (opener :: (inside ++ closer :: after)))
    (standing : passed.length = index) (earlier : ∀ entry ∈ passed, entry.position < before.length) :
    ∃ shorter, closeAt tokens code index = .closed (before.length + 1 + inside.length)
        ⟨codeFrom false (before.length + 1 + inside.length + 1) after, shorter⟩ := by
  obtain ⟨-, opens, closes⟩ := closingBracket?_of_mem pair
  have openCode : isCode (lexeme opener) := by rw [lexeme, opens]; rfl
  have closeCode : isCode (lexeme closer) := by rw [lexeme, closes]; rfl
  have line : inside.foldl onDirective false = false := by
    rw [foldl_onDirective]
    exact nested.state
  have found : after? (before.length + 1 + inside.length) code =
      some (codeFrom false (before.length + 1 + inside.length + 1) after) := by
    rw [shape, after?_append, codeFrom_cons openCode, after?, if_neg (by simp; omega),
      after?_codeFrom closeCode line]
    intro entry mem
    have := earlier entry mem
    omega
  have placed : code[index]? = some ⟨before.length, opener⟩ := by
    rw [shape, ← standing, getElem?_append_right (Nat.le_refl _), Nat.sub_self,
      codeFrom_cons openCode, getElem?_cons_zero]
  have matched : matching? tokens before.length = some (before.length + 1 + inside.length) := by
    have aligned : tokens.drop before.length = opener :: (inside ++ closer :: after) := by
      rw [whole, List.drop_left]
    exact matching?_of_depthAfter pair aligned (nested.depthAfter pair 1 (Nat.le_refl 1))
  exact ⟨after?_length found, closeAt_eq placed matched found⟩

/-- Code that starts with a head and goes on with a group behind it. -/
structure Headed (tokens : List Token) (code : List Placed) (words : List Lexeme) (opener : Placed)
    (closing : Nat) (rest : List Placed) : Prop where
  pieces : ∃ others, code.map pieceOf = words ++ lexeme opener.token :: others
  stands : code[words.length]? = some opener
  closes : ∃ shorter, closeAt tokens code words.length = .closed closing ⟨rest, shorter⟩

theorem headed_codeFrom (whole : tokens = before ++ (head ++ opener :: (inside ++ closer :: after)))
    (ends : (head.map lexeme).foldl directiveAfter false = false)
    (pair : (lexeme opener, lexeme closer) ∈ bracketPairs)
    (nested : Nested false (inside.map lexeme) false) :
    Headed tokens (codeFrom false before.length (head ++ opener :: (inside ++ closer :: after)))
      (codePieces false (head.map lexeme)) ⟨before.length + head.length, opener⟩
      (before.length + head.length + 1 + inside.length)
      (codeFrom false (before.length + head.length + 1 + inside.length + 1) after) := by
  have isOpener : isCode (lexeme opener) := by
    rw [lexeme, (closingBracket?_of_mem pair).2.1]
    rfl
  have pieces : (codeFrom false before.length head).map pieceOf = codePieces false (head.map lexeme) :=
    codeFrom_lexemes false before.length head
  have words : (codeFrom false before.length head).length =
      (codePieces false (head.map lexeme)).length := by
    rw [← pieces, length_map]
  have front : codeFrom false before.length (head ++ opener :: (inside ++ closer :: after)) =
      codeFrom false before.length head ++
        codeFrom false (before ++ head).length (opener :: (inside ++ closer :: after)) := by
    rw [codeFrom_append, foldl_onDirective, ends, length_append]
  rw [front, ← length_append]
  refine ⟨?_, ?_, closeAt_group (by rw [whole, append_assoc]) pair nested rfl words ?_⟩
  · rw [codeFrom_cons isOpener, map_append, pieces]
    exact ⟨_, rfl⟩
  · rw [codeFrom_cons isOpener, ← words, getElem?_append_right (Nat.le_refl _), Nat.sub_self,
      getElem?_cons_zero]
  · intro entry mem
    rw [length_append]
    exact (position_of_mem_codeFrom mem).2

/-- Code starts with the first token of a head. -/
theorem exists_first (opens : (head.map lexeme).head?.any isCode)
    (starts : head.head?.map Token.start = some start) (index : Nat) (others : List Token) :
    ∃ entry rest, codeFrom false index (head ++ others) = entry :: rest ∧
      entry.token.start = start := by
  cases head with
  | nil => cases starts
  | cons first more => exact ⟨_, _, codeFrom_cons opens index (more ++ others), Option.some.inj starts⟩

theorem take_inside (before inside after : List Token) (opener closer : Token) :
    ((before ++ opener :: (inside ++ closer :: after)).drop (before.length + 1)).take
      (before.length + 1 + inside.length - (before.length + 1)) = inside := by simp

theorem scanFrom_block (whole : tokens = before ++ opener :: (inside ++ closer :: after))
    (opens : lexeme opener = punct '\x7b') (closes : lexeme closer = punct '\x7d')
    (nested : Nested false (inside.map lexeme) false) (atStart : Bool) :
    scanFrom tokens atStart (codeFrom false before.length (opener :: (inside ++ closer :: after))) =
      scanFrom tokens true (codeFrom false (before.length + 1 + inside.length + 1) after) := by
  have pair : (lexeme opener, lexeme closer) ∈ bracketPairs := by
    rw [opens, closes]
    decide
  have code : isCode (lexeme opener) := by
    rw [opens]
    rfl
  have front := codeFrom_cons code before.length (inside ++ closer :: after)
  obtain ⟨shorter, closed⟩ := closeAt_group whole pair nested
    (front.symm.trans (nil_append _).symm) length_nil (by simp)
  have brace : opener.isPunct "\x7b" := by
    rw [isPunct_lexeme, opens]
    rfl
  have nothing (rest : List Placed) :
      opensDefinition atStart (pieceOf ⟨before.length, opener⟩ :: rest.map pieceOf) = false := by
    rw [pieceOf, opens]
    match rest with
    | [] => cases atStart <;> rfl
    | [second] => cases atStart <;> rfl
    | second :: third :: others => cases atStart <;> rfl
  rw [front, scanFrom, step_other (nothing _), otherStep, if_pos brace, closed]

/-- Lexemes that open no definition, from a state of the scan to the start of a statement. -/
inductive Quiet : Bool → List Lexeme → Prop where
  | nil : Quiet true []
  | gap {atStart : Bool} {silent rest : List Lexeme} (isSilent : Silent silent)
      (others : Quiet atStart rest) : Quiet atStart (silent ++ rest)
  | plain {atStart : Bool} {piece : Lexeme} {rest : List Lexeme} (code : isCode piece = true)
      (notBrace : piece ≠ punct '\x7b')
      (nothing : opensDefinition atStart (piece :: codePieces false rest) = false)
      (others : Quiet (endsStatement piece) rest) : Quiet atStart (piece :: rest)
  | block {atStart : Bool} {inside rest : List Lexeme} (nested : Nested false inside false)
      (others : Quiet true rest) :
      Quiet atStart (punct '\x7b' :: (inside ++ punct '\x7d' :: rest))

/-! Heads of functions. -/

/-- Precisions, a return type and a name, from the first of them on, with trivia between them. -/
structure FunctionHead (pieces : List Lexeme) (precisions : List String)
    (returnType name : String) : Prop where
  opens : pieces.head?.any isCode = true
  reads : codePieces false pieces = precisions.map word ++ [word returnType, word name]
  ends : pieces.foldl directiveAfter false = false
  qualified : ∀ precision ∈ precisions, precision ∈ precisionQualifiers
  plain : returnType ∉ storageQualifiers

theorem isPrecision_word {name : String} : isPrecision (word name) = precisionQualifiers.contains name := by
  rw [isPrecision, word, String.ofList_toList]

section FunctionHead

variable {pieces : List Lexeme} {precisions : List String} {returnType name : String}

theorem FunctionHead.exists_word (head : FunctionHead pieces precisions returnType name) :
    ∃ first others, pieces = word first :: others := by
  cases pieces with
  | nil => cases head.opens
  | cons first others =>
    have reads := head.reads
    rw [codePieces_cons head.opens] at reads
    cases precisions with
    | nil => grind
    | cons precision more => grind

theorem FunctionHead.precisions_all (head : FunctionHead pieces precisions returnType name) :
    ∀ piece ∈ precisions.map word, isPrecision piece := by
  intro piece mem
  obtain ⟨precision, listed, rfl⟩ := mem_map.mp mem
  rw [isPrecision_word, contains_iff_mem]
  exact head.qualified precision listed

theorem FunctionHead.returnType_plain (head : FunctionHead pieces precisions returnType name) :
    isPrecision (word returnType) = false := by
  rw [isPrecision_word, Bool.eq_false_iff]
  intro listed
  exact head.plain (mem_append_left _ (mem_append_right _ (contains_iff_mem.mp listed)))

theorem FunctionHead.startsFunction (head : FunctionHead pieces precisions returnType name)
    (others : List Lexeme) :
    startsStruct (codePieces false pieces ++ punct '(' :: others) = false ∧
      Definition.startsFunction (codePieces false pieces ++ punct '(' :: others) := by
  rw [head.reads]
  constructor
  · match precisions, head.qualified with
    | [], _ => simp [startsStruct, opensWith, punct]
    | precision :: rest, qualified =>
      have listed := qualified precision mem_cons_self
      have other : (word precision == word "struct") = false := by
        simp only [precisionQualifiers, mem_cons, not_mem_nil, or_false] at listed
        rcases listed with rfl | rfl | rfl <;> decide
      exact startsStruct_other other _
  · have plain : storageQualifiers.contains (String.ofList (word returnType).text) = false := by
      rw [word, String.ofList_toList, Bool.eq_false_iff]
      exact fun listed => head.plain (contains_iff_mem.mp listed)
    rw [Definition.startsFunction, append_assoc, dropWhile_append_of_pos head.precisions_all,
      cons_append, dropWhile_cons_of_neg (by simp [head.returnType_plain])]
    simp only [cons_append, nil_append, opensWith, plain]
    rfl

theorem FunctionHead.length (head : FunctionHead pieces precisions returnType name) :
    (codePieces false pieces).length = precisions.length + 2 := by
  rw [head.reads, length_append, length_map]
  rfl

/-- What the scan reads off code that starts with a head and a parenthesis. -/
theorem FunctionHead.read (head : FunctionHead pieces precisions returnType name)
    (shape : code.map pieceOf = codePieces false pieces ++ punct '(' :: others) :
    opensStruct code = false ∧ opensFunction code ∧ precisionCount code = precisions.length ∧
      textAt code precisions.length = returnType ∧ textAt code (precisions.length + 1) = name := by
  obtain ⟨noStruct, isFunction⟩ := head.startsFunction others
  refine ⟨by rw [opensStruct_eq, shape, noStruct], by rw [opensFunction_eq, shape, isFunction], ?_, ?_, ?_⟩
  · rw [precisionCount_eq, shape, head.reads, append_assoc,
      takeWhile_append_of_pos head.precisions_all, cons_append,
      takeWhile_cons_of_neg (by simp [head.returnType_plain])]
    simp
  · rw [textAt_eq, shape, head.reads]
    simp [word]
  · rw [textAt_eq, shape, head.reads]
    simp [word]

end FunctionHead

/-- A head whose parameters no body follows, with the code behind them. -/
def Bodyless (pieces : List Lexeme) : Prop :=
  ∃ head precisions returnType name parameters behind,
    pieces = head ++ punct '(' :: (parameters ++ punct ')' :: behind) ∧
    FunctionHead head precisions returnType name ∧ Nested false parameters false ∧
    (codePieces false behind).head?.any (·.text != ['\x7b']) = true

/-- Lexemes that are no definition, from a state of the scan to the start of a statement. Those of
`Quiet` do not even open one. -/
inductive Calm : Bool → List Lexeme → Prop where
  | nil : Calm true []
  | gap {atStart : Bool} {silent rest : List Lexeme} (isSilent : Silent silent)
      (others : Calm atStart rest) : Calm atStart (silent ++ rest)
  | plain {atStart : Bool} {piece : Lexeme} {rest : List Lexeme} (code : isCode piece = true)
      (notBrace : piece ≠ punct '\x7b')
      (nothing : opensDefinition atStart (piece :: codePieces false rest) = false ∨
        atStart = true ∧ Bodyless (piece :: rest))
      (others : Calm (endsStatement piece) rest) : Calm atStart (piece :: rest)
  | block {atStart : Bool} {inside rest : List Lexeme} (nested : Nested false inside false)
      (others : Calm true rest) :
      Calm atStart (punct '\x7b' :: (inside ++ punct '\x7d' :: rest))

theorem Quiet.calm (quiet : Quiet atStart pieces) : Calm atStart pieces := by
  induction quiet with
  | nil => exact .nil
  | gap isSilent _ ih => exact .gap isSilent ih
  | plain code notBrace nothing _ ih => exact .plain code notBrace (.inl nothing) ih
  | block nested _ ih => exact .block nested ih

theorem Calm.state (calm : Calm atStart pieces) : pieces.foldl directiveAfter false = false := by
  induction calm with
  | nil => rfl
  | gap isSilent _ ih => rw [foldl_append, isSilent.2, ih]
  | plain code _ _ _ ih =>
    rw [foldl_cons, directiveAfter_code code, ih]
  | block nested _ ih =>
    rw [foldl_cons, directiveAfter_punct, foldl_append, nested.state, foldl_cons,
      directiveAfter_punct, ih]

/-- Calm lexemes hold no code, or their code ends with a statement. -/
theorem Calm.ends (calm : Calm atStart pieces) :
    (codePieces false pieces = [] ∧ atStart) ∨
      ∃ front last, codePieces false pieces = front ++ [last] ∧ endsStatement last := by
  induction calm with
  | nil => exact .inl ⟨rfl, rfl⟩
  | gap isSilent _ ih =>
    rwa [codePieces_append, isSilent.1, isSilent.2]
  | @plain atStart piece rest code _ _ _ ih =>
    refine .inr ?_
    rw [codePieces_cons code]
    rcases ih with ⟨nothing, ends⟩ | ⟨front, last, shape, ends⟩
    · exact ⟨[], piece, by rw [nothing, nil_append], ends⟩
    grind
  | @block atStart inside rest nested _ ih =>
    refine .inr ?_
    have code : codePieces false (punct '\x7b' :: (inside ++ punct '\x7d' :: rest)) =
        punct '\x7b' :: (codePieces false inside ++ punct '\x7d' :: codePieces false rest) := by
      rw [codePieces_cons rfl, codePieces_append, nested.state, codePieces_cons rfl]
    rw [code]
    rcases ih with ⟨nothing, -⟩ | ⟨front, last, shape, ends⟩
    · exact ⟨punct '\x7b' :: codePieces false inside, punct '\x7d',
        by rw [nothing, cons_append], rfl⟩
    grind

theorem kind_of_endsStatement {piece : Lexeme} (ends : endsStatement piece) :
    piece = punct ';' ∨ piece = punct '\x7d' := by
  simpa only [endsStatement, Bool.or_eq_true, beq_iff_eq] using ends

theorem opensWith_append {test : Lexeme → Lexeme → Bool} (noName : (last.kind == .ident) = false)
    (others : List Lexeme) :
    opensWith test (front ++ last :: others) = opensWith test (front ++ [last]) := by
  match front with
  | [] =>
    rcases others with _ | ⟨second, _ | ⟨third, rest⟩⟩
    · rfl
    · rfl
    · simp [opensWith, noName]
  | [first] =>
    rcases others with _ | ⟨third, rest⟩
    · rfl
    · simp [opensWith, noName]
  | [first, second] => rfl
  | first :: second :: third :: rest => rfl

/-- What opens code does not depend on what follows a statement's end. -/
theorem opensDefinition_append (ends : endsStatement last) (atStart : Bool) (others : List Lexeme) :
    opensDefinition atStart (front ++ last :: others) =
      opensDefinition atStart (front ++ [last]) := by
  have plain : (last.kind == .ident) = false ∧ isPrecision last = false := by
    rcases kind_of_endsStatement ends with rfl | rfl <;> decide
  have precisions (rest : List Lexeme) : (front ++ last :: rest).dropWhile isPrecision =
      front.dropWhile isPrecision ++ last :: rest := by
    rw [dropWhile_append]
    split
    next none => simp_all
    · rfl
  simp only [opensDefinition, startsStruct, startsFunction, precisions,
    opensWith_append plain.1 others]

/-- What opens quiet code is the same, whatever follows it. -/
theorem opensDefinition_behind (others : Calm (endsStatement (lexeme token)) pieces)
    (later : further.map lexeme = pieces)
    (nothing : opensDefinition atStart (lexeme token :: codePieces false pieces) = false)
    (index : Nat) (after : List Token) :
    opensDefinition atStart (pieceOf ⟨index, token⟩ ::
      (codeFrom false (index + 1) (further ++ after)).map pieceOf) = false := by
  have line : further.foldl onDirective false = false := by
    rw [foldl_onDirective, later, others.state]
  have behind : (codeFrom false (index + 1) (further ++ after)).map pieceOf =
      codePieces false pieces ++ codePieces false (after.map lexeme) := by
    rw [codeFrom_append, line, map_append, ← later, ← codeFrom_lexemes false _ further,
      ← codeFrom_lexemes false _ after]
    rfl
  obtain ⟨front, last, shape, ends⟩ : ∃ front last,
      lexeme token :: codePieces false pieces = front ++ [last] ∧ endsStatement last := by
    rcases others.ends with ⟨none, ends⟩ | ⟨front, last, same, ends⟩
    · exact ⟨[], lexeme token, by rw [none, nil_append], ends⟩
    grind
  grind [pieceOf, opensDefinition_append]

theorem functionStep_none {shorter} (closed : closeAt tokens code (precisionCount code + 2) =
      .closed parametersClose ⟨afterParameters, shorter⟩)
    (bodyless : textAt afterParameters 0 ≠ "\x7b") : functionStep tokens code = .ok none := by
  simp only [functionStep, closed]
  rw [if_pos (by simpa using bodyless)]

/-- A head without a body is passed over as any other code. -/
theorem step_bodyless (whole : tokens = before ++ (token :: further ++ after))
    (bodyless : Bodyless (lexeme token :: further.map lexeme)) :
    step tokens true ⟨before.length, token⟩ (codeFrom false (before.length + 1) (further ++ after)) =
      otherStep tokens _ _ := by
  obtain ⟨headPieces, precisions, returnType, name, parameterPieces, behindPieces, shape, isHead,
    nested, noBody⟩ := bodyless
  obtain ⟨head, later, same, rfl, laterShape⟩ := @exists_lexeme_append (token :: further) _ _ shape
  obtain ⟨opener, inner, rfl, opens, innerShape⟩ := exists_lexeme_cons laterShape
  obtain ⟨params, behind, rfl, rfl, behindShape⟩ := exists_lexeme_append innerShape
  obtain ⟨closer, rest, rfl, closes, rfl⟩ := exists_lexeme_cons behindShape
  have split : token :: further ++ after =
      head ++ opener :: (params ++ closer :: (rest ++ after)) := by
    rw [same]
    simp
  have heads := headed_codeFrom (whole.trans (congrArg (before ++ ·) split)) isHead.ends
    (by rw [opens, closes]; decide) nested
  have code : isCode (lexeme token) := by
    obtain ⟨first, others, isWord⟩ := isHead.exists_word
    rw [isWord] at shape
    rw [(List.cons.inj shape).1]
    rfl
  rw [← split, cons_append, codeFrom_cons code] at heads
  obtain ⟨others, pieces⟩ := heads.pieces
  rw [opens] at pieces
  obtain ⟨noStruct, isFunction, counted, -, -⟩ := isHead.read pieces
  obtain ⟨shorter, closed⟩ := heads.closes
  rw [isHead.length, ← counted] at closed
  have text : textAt (codeFrom false (before.length + head.length + 1 + params.length + 1)
      (rest ++ after)) 0 ≠ "\x7b" := by
    have codes := codeFrom_lexemes false (before.length + head.length + 1 + params.length + 1)
      (rest ++ after)
    rw [map_append, codePieces_append] at codes
    rw [textAt_eq, show List.map pieceOf _ = _ from codes]
    cases shape : codePieces false (rest.map lexeme) with
    | nil =>
      rw [shape] at noBody
      cases noBody
    | cons first more =>
      intro brace
      have letters : first.text = ['\x7b'] := String.ofList_injective brace
      grind
  rw [step, noStruct, isFunction, functionStep_none closed text]
  rfl

/-- The scan passes over calm lexemes and stands at the start of a statement. -/
theorem scanFrom_calm (calm : Calm atStart pieces) :
    ∀ (before inner after : List Token), tokens = before ++ (inner ++ after) →
      inner.map lexeme = pieces →
      scanFrom tokens atStart (codeFrom false before.length (inner ++ after)) =
        scanFrom tokens true (codeFrom false (before.length + inner.length) after) := by
  induction calm with
  | nil => simp_all
  | gap isSilent _ ih =>
    intro before inner after whole shape
    obtain ⟨first, second, rfl, rfl, later⟩ := exists_lexeme_append shape
    grind [codeFrom_silent]
  | @plain atStart piece rest code notBrace nothing others ih =>
    intro before inner after whole shape
    obtain ⟨token, further, rfl, rfl, later⟩ := exists_lexeme_cons shape
    have step := ih (before ++ [token]) further after (by rw [whole]; simp) later
    rw [length_append] at step
    have ahead : Definition.step tokens atStart ⟨before.length, token⟩
        (codeFrom false (before.length + 1) (further ++ after)) = otherStep tokens _ _ := by
      rcases nothing with nothing | ⟨rfl, bodyless⟩
      · exact step_other (opensDefinition_behind others later nothing before.length after)
      · exact step_bodyless whole (later ▸ bodyless)
    rw [cons_append, codeFrom_cons code, scanFrom_plain ahead notBrace,
      length_cons, ← Nat.add_assoc, Nat.add_right_comm]
    exact step
  | block nested _ ih =>
    intro before inner after whole shape
    obtain ⟨opener, further, rfl, opens, later⟩ := exists_lexeme_cons shape
    obtain ⟨inside, behind, rfl, rfl, behindShape⟩ := exists_lexeme_append later
    obtain ⟨closer, n, rfl, closes, remainingShape⟩ := exists_lexeme_cons behindShape
    have step := ih (before ++ opener :: (inside ++ [closer])) n
      after (by rw [whole]; simp) remainingShape
    grind [scanFrom_block]

/-! Functions. -/

theorem functionStep_eq {count bodyClose : Nat} {shorter bodyShorter}
    (counted : precisionCount code = count) (parameters : closeAt tokens code (count + 2) =
      .closed parametersClose ⟨afterParameters, shorter⟩)
    (brace : textAt afterParameters 0 = "\x7b")
    (body : closeAt tokens afterParameters 0 = .closed bodyClose ⟨rest, bodyShorter⟩) :
    ∃ smaller, functionStep tokens code = .ok (some (.found
      { kind := .function, name := textAt code (count + 1), returnType := textAt code count
        parameters := Text.trim (render ((tokens.drop
          ((code[count + 2]?.map Placed.position).getD 0 + 1)).take
            (parametersClose - ((code[count + 2]?.map Placed.position).getD 0 + 1))))
        start := (code.head?.map fun entry => entry.token.start).getD 0
        stop := tokenStop tokens bodyClose
        bodyStart := (afterParameters[0]?.map fun entry => entry.token.stop).getD 0
        bodyStop := tokenStart tokens bodyClose } ⟨rest, smaller⟩)) := by
  refine ⟨by omega, ?_⟩
  subst counted
  simp only [functionStep, parameters, brace, body, bne_self_eq_false, Bool.false_eq_true, if_false]

theorem step_function {result : Step (entry :: rest)}
    (noStruct : opensStruct (entry :: rest) = false) (opens : opensFunction (entry :: rest))
    (reads : functionStep tokens (entry :: rest) = .ok (some result)) :
    step tokens true entry rest = .ok result := by
  rw [step, noStruct, opens, reads]
  rfl

theorem scanFrom_found {after : List Placed} {defn : Definition} {shorter}
    (found : step tokens atStart entry rest = .ok (.found defn ⟨after, shorter⟩)) :
    scanFrom tokens atStart (entry :: rest) = (scanFrom tokens true after).map (defn :: ·) := by
  rw [scanFrom, found]

/-- The scan finds a function where one stands. -/
theorem scanFrom_function {parameters between : List Token} {precisions : List String}
    {returnType name : String}
    (whole : tokens = before ++ (head ++ opener :: (parameters ++ closer ::
      (between ++ brace :: (body ++ closingBrace :: after)))))
    (isHead : FunctionHead (head.map lexeme) precisions returnType name)
    (opens : lexeme opener = punct '(') (closes : lexeme closer = punct ')')
    (nestedParameters : Nested false (parameters.map lexeme) false)
    (silent : Silent (between.map lexeme)) (opensBody : lexeme brace = punct '\x7b')
    (closesBody : lexeme closingBrace = punct '\x7d')
    (nestedBody : Nested false (body.map lexeme) false)
    (starts : head.head?.map Token.start = some start) :
    scanFrom tokens true (codeFrom false before.length (head ++ opener :: (parameters ++ closer ::
        (between ++ brace :: (body ++ closingBrace :: after))))) =
      (scanFrom tokens true (codeFrom false (before.length + head.length + 1 + parameters.length +
        1 + between.length + 1 + body.length + 1) after)).map
        ({ kind := .function, name, returnType, parameters := Text.trim (render parameters), start,
           stop := closingBrace.stop, bodyStart := brace.stop,
           bodyStop := closingBrace.start } :: ·) := by
  obtain ⟨ahead, cut, aheadLength⟩ : ∃ ahead : List Token,
      tokens = ahead ++ ([] ++ brace :: (body ++ closingBrace :: after)) ∧ ahead.length =
        before.length + head.length + 1 + parameters.length + 1 + between.length :=
    ⟨before ++ (head ++ opener :: (parameters ++ closer :: between)),
      by rw [whole]; simp, by simp only [length_append, length_cons]; omega⟩
  -- the parenthesis closes in front of the body, and the brace behind it
  have heads := headed_codeFrom whole isHead.ends (by rw [opens, closes]; decide) nestedParameters
  have bodied := headed_codeFrom cut rfl (by rw [opensBody, closesBody]; decide) nestedBody
  rw [show codeFrom false ahead.length ([] ++ brace :: (body ++ closingBrace :: after)) =
    codeFrom false (before.length + head.length + 1 + parameters.length + 1)
      (between ++ brace :: (body ++ closingBrace :: after)) by
    rw [codeFrom_silent silent, aheadLength, nil_append]] at bodied
  generalize codeFrom false (before.length + head.length + 1 + parameters.length + 1) _ = inner
    at heads bodied
  obtain ⟨first, rest, shape, rfl⟩ := exists_first isHead.opens starts before.length
    (opener :: (parameters ++ closer :: (between ++ brace :: (body ++ closingBrace :: after))))
  rw [shape] at heads ⊢
  obtain ⟨others, pieces⟩ := heads.pieces
  rw [opens] at pieces
  obtain ⟨noStruct, isFunction, counted, typed, named⟩ := isHead.read pieces
  have openPlace := heads.stands
  obtain ⟨shorter, parametersClosed⟩ := heads.closes
  rw [isHead.length] at openPlace parametersClosed
  have braceAt : inner[0]? = some ⟨ahead.length, brace⟩ := bodied.stands
  obtain ⟨bodyShorter, bodyClosed⟩ := bodied.closes
  have braceText : textAt inner 0 = "\x7b" := by
    rw [textAt, braceAt]
    exact (lexeme_eq opensBody).2
  obtain ⟨smaller, found⟩ := functionStep_eq counted parametersClosed braceText bodyClosed
  have inside : (tokens.drop (before.length + head.length + 1)).take
      (before.length + head.length + 1 + parameters.length - (before.length + head.length + 1)) =
        parameters := by
    rw [whole, ← append_assoc, ← length_append, take_inside]
  have closing : tokens[ahead.length + 1 + body.length]? = some closingBrace := by
    rw [cut, nil_append, getElem?_closer]
  rw [scanFrom_found (step_function noStruct isFunction found)]
  simp_all [tokenStop, tokenStart]

/-! Structures. -/

/-- The word that opens a structure and its name, with trivia between and behind them. -/
structure StructHead (pieces : List Lexeme) (name : String) : Prop where
  opens : pieces.head? = some (word "struct")
  reads : codePieces false pieces = [word "struct", word name]
  ends : pieces.foldl directiveAfter false = false

/-- What stands between the body of a structure and the semicolon that ends it. -/
structure StructTail (pieces : List Lexeme) : Prop where
  unended : ∀ piece ∈ codePieces false pieces, piece.text ≠ [';']
  ends : pieces.foldl directiveAfter false = false

theorem structStep_eq {close : Nat} {shorter}
    (body : closeAt tokens code 2 = .closed close ⟨rest, shorter⟩) :
    ∃ smaller, structStep tokens code = .ok (.found
      { kind := .struct, name := textAt code 1, returnType := "", parameters := ""
        start := (code.head?.map fun entry => entry.token.start).getD 0
        stop := structStop (tokenStop tokens close) rest
        bodyStart := (code[2]?.map fun entry => entry.token.stop).getD 0
        bodyStop := tokenStart tokens close } ⟨afterSemicolon rest, smaller⟩) := by
  grind [afterSemicolon_length, structStep]

theorem step_struct {result : Step (entry :: rest)} (opens : opensStruct (entry :: rest))
    (reads : structStep tokens (entry :: rest) = .ok result) :
    step tokens atStart entry rest = .ok result := by
  rw [step, if_pos opens, reads]

/-- The first semicolon of code behind lexemes without one. -/
theorem firstSemicolon (isTail : StructTail (tail.map lexeme)) (ends : lexeme semicolon = punct ';')
    (after : List Token) (index fallback : Nat) :
    structStop fallback (codeFrom false index (tail ++ semicolon :: after)) = semicolon.stop ∧
      afterSemicolon (codeFrom false index (tail ++ semicolon :: after)) =
        codeFrom false (index + tail.length + 1) after := by
  have code : isCode (lexeme semicolon) := by rw [ends]; rfl
  have text : semicolon.text = ";" := (lexeme_eq ends).2
  have others : ∀ entry ∈ codeFrom false index tail, ¬ entry.token.text = ";" := by
    intro entry mem same
    have listed : lexeme entry.token ∈ codePieces false (tail.map lexeme) := by
      rw [← codeFrom_lexemes false index tail]
      exact mem_map.mpr ⟨entry, mem, rfl⟩
    refine isTail.unended _ listed ?_
    rw [lexeme, same]
    rfl
  rw [codeFrom_append, foldl_onDirective, isTail.ends, codeFrom_cons code]
  constructor
  · have noneFound : (codeFrom false index tail).find? (fun entry => entry.token.text == ";") = none :=
      find?_eq_none.mpr (by simpa using others)
    rw [structStop, find?_append, noneFound, Option.none_or, find?_cons_of_pos (by simp [text])]
  · rw [afterSemicolon, dropWhile_append_of_pos (by simpa using others),
      dropWhile_cons_of_neg (by simp [text]), drop_one, tail_cons]

/-- The scan finds a structure where one stands, also inside a statement. -/
theorem scanFrom_struct {name : String}
    (whole : tokens = before ++ (head ++ brace :: (body ++ closingBrace ::
      (tail ++ semicolon :: after)))) (isHead : StructHead (head.map lexeme) name)
    (opensBody : lexeme brace = punct '\x7b') (closesBody : lexeme closingBrace = punct '\x7d')
    (nestedBody : Nested false (body.map lexeme) false) (isTail : StructTail (tail.map lexeme))
    (ends : lexeme semicolon = punct ';')
    (starts : head.head?.map Token.start = some start) (atStart : Bool) :
    scanFrom tokens atStart (codeFrom false before.length (head ++ brace :: (body ++ closingBrace ::
        (tail ++ semicolon :: after)))) =
      (scanFrom tokens true (codeFrom false (before.length + head.length + 1 + body.length + 1 +
        tail.length + 1) after)).map
        ({ kind := .struct, name, returnType := "", parameters := "", start,
           stop := semicolon.stop, bodyStart := brace.stop,
           bodyStop := closingBrace.start } :: ·) := by
  have heads := headed_codeFrom whole isHead.ends (by rw [opensBody, closesBody]; decide) nestedBody
  obtain ⟨first, rest, shape, rfl⟩ := exists_first (by rw [isHead.opens]; rfl) starts before.length
    (brace :: (body ++ closingBrace :: (tail ++ semicolon :: after)))
  rw [shape] at heads ⊢
  obtain ⟨others, pieces⟩ := heads.pieces
  rw [isHead.reads, opensBody] at pieces
  have opens : opensStruct (first :: rest) := by
    rw [opensStruct_eq, pieces]
    rfl
  have named : textAt (first :: rest) 1 = name := by
    rw [textAt_eq, pieces]
    exact String.ofList_toList
  have count : (codePieces false (head.map lexeme)).length = 2 := by rw [isHead.reads]; rfl
  have braceAt := heads.stands
  obtain ⟨shorter, closed⟩ := heads.closes
  rw [count] at braceAt closed
  obtain ⟨smaller, found⟩ := structStep_eq closed
  obtain ⟨stops, left⟩ := firstSemicolon isTail ends after
    (before.length + head.length + 1 + body.length + 1)
    (tokenStop tokens (before.length + head.length + 1 + body.length))
  grind [scanFrom_found, step_struct, tokenStart]

/-- Words in front of a structure open no function. -/
theorem startsFunction_lead {name : String}
    (names : ∀ word ∈ qualifiers ++ [name], isName word.toList) (others : List Lexeme) :
    startsFunction (qualifiers.map word ++
      word "struct" :: word name :: punct '\x7b' :: others) = false := by
  have noBracket : ∀ word ∈ qualifiers ++ [name], (word.toList == ['(']) = false := by
    intro word mem
    rw [beq_eq_false_iff_ne]
    intro bracket
    have named := names word mem
    rw [bracket] at named
    exact absurd named (by decide)
  -- precisions in front are left out; the words behind them are still names
  obtain ⟨left, leftWords, n⟩ : ∃ left : List String, (∀ word ∈ left, word ∈ qualifiers) ∧
      (qualifiers.map word ++ word "struct" :: word name :: punct '\x7b' :: others).dropWhile
        isPrecision = left.map word ++ word "struct" :: word name :: punct '\x7b' :: others := by
    refine ⟨qualifiers.dropWhile (isPrecision ∘ word), fun word mem =>
      (dropWhile_sublist _).subset mem, ?_⟩
    rw [dropWhile_append, dropWhile_map]
    split
    next none =>
      rw [List.isEmpty_iff.mp none]
      rfl
    · rfl
  have third (word : String) (mem : word ∈ left ++ [name]) : (word.toList == ['(']) = false := by
    refine noBracket word ?_
    rcases mem_append.mp mem with inLeft | isName
    · exact mem_append_left _ (leftWords word inLeft)
    · exact mem_append_right _ isName
  rw [startsFunction, n]
  match left, third with
  | [], _ => simp [opensWith, punct]
  | [first], third => simp [opensWith, word, third name (by simp)]
  | [first, second], _ => simp [opensWith, word]
  | first :: second :: further :: more, third => simp [opensWith, word, third further (by simp)]

/-- The scan passes over words in front of a structure. -/
theorem scanFrom_lead {name : String} {after : List Placed}
    (follows : after.map pieceOf = word "struct" :: word name :: punct '\x7b' :: others)
    {lead : List Placed} (leads : lead.map pieceOf = qualifiers.map word)
    (names : ∀ word ∈ qualifiers ++ [name], isName word.toList)
    (plain : ∀ word ∈ qualifiers, word ≠ "struct") (atStart : Bool) :
    ∃ state, scanFrom tokens atStart (lead ++ after) = scanFrom tokens state after := by
  induction lead generalizing qualifiers atStart with
  | nil => exact ⟨atStart, rfl⟩
  | cons entry rest ih =>
    cases qualifiers with
    | nil => cases leads
    | cons qualifier more =>
      obtain ⟨isWord, later⟩ := List.cons.inj leads
      have nothing : opensDefinition atStart (pieceOf entry :: (rest ++ after).map pieceOf) =
          false := by
        have noStruct : (word qualifier == word "struct") = false := by
          rw [beq_eq_false_iff_ne]
          intro same
          exact plain qualifier mem_cons_self (String.toList_inj.mp (congrArg Lexeme.text same))
        have noFunction := startsFunction_lead names others
        simp_all [opensDefinition, startsStruct_other]
      rw [cons_append, scanFrom_plain (step_other nothing) (by rw [isWord]; rintro ⟨⟩)]
      exact ih later (forall_mem_cons.mp names).2 (forall_mem_cons.mp plain).2 _

end WebShader.Definition
