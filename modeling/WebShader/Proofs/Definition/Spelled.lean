import WebShader.Proofs.Definition.Layout
import WebShader.Proofs.Definition.Written

/-!
Contract: definitions and declarations that are stored with their text.

Owns: texts without hashes and layouts, when a stored text is well formed, and
what is read from it alone.

Does not own: several texts in a row; those are `Layout`.

Each part carries the lexemes of its text, so a part that is built is well formed.
-/

namespace WebShader.Text

open List

/-- A reader that fails on every end of a text matches nowhere in it. -/
theorem findAllFrom_fails {α : Type} {opening : Opening} {reader : Reader α} {text : List Char}
    (fails : ∀ tail, tail <:+ text → reader.read? tail = none) (prev : Option Char)
    (offset : Nat) : findAllFrom opening reader prev offset 0 text = [] := by
  induction text generalizing prev offset with
  | nil => rfl
  | cons c rest ih =>
    grind [findAllFrom]

/-- A word that does not hold a character stands on one side of it. -/
theorem infix_append_cons {word left right : List Char} {c : Char} (apart : c ∉ word)
    (inside : word <:+: left ++ c :: right) : word <:+: left ∨ word <:+: right := by
  obtain ⟨front, back, shape⟩ := inside
  rw [append_assoc] at shape
  rcases append_eq_append_iff.mp shape with ⟨gap, rfl, behind⟩ | ⟨gap, rfl, behind⟩
  · refine .inl ?_
    rcases append_eq_append_iff.mp behind with ⟨more, rfl, -⟩ | ⟨more, rfl, after⟩
    · exact ⟨front, more, append_assoc _ _ _⟩
    · cases more with
      | nil => exact ⟨front, [], by simp⟩
      | cons d others => grind
  · refine .inr ?_
    cases gap with
    | nil =>
      cases word with
      | nil => exact nil_infix
      | cons d others => grind
    | cons d others => grind

end WebShader.Text

namespace WebShader.Preamble

open List Text Token

/-- A text without hashes and without the word that opens layouts. -/
structure Unmarked (text : List Char) : Prop where
  noHash : '#' ∉ text
  noLayout : ¬ "layout".toList <:+: text

theorem literal_fails {wanted : String} {text : List Char} (absent : ¬ wanted.toList <+: text) :
    (Reader.literal wanted).read? text = none := by
  cases read : (Reader.literal wanted).read? text with
  | none => rfl
  | some found =>
    exact absurd ⟨found.2, (Reader.literal_eq_some read).symm⟩ absent

theorem macrosOf_undirected {tokens : List Token} (plain : ∀ token ∈ tokens, token.kind ≠ .directive) :
    (macrosOf tokens).value = [] := by
  induction tokens with
  | nil => rfl
  | cons token rest ih => grind [macroAt?, macrosOf_cons]

section Unmarked

variable {text : String} (unmarked : Unmarked text.toList)

include unmarked

theorem textOf?_unmarked : textOf? text = none := by
  rw [textOf?_eq_none]
  refine findAllFrom_fails (fun tail behind => ?_) none 0
  have noHash : ¬ "#".toList <+: tail.dropWhile Reader.isSpaceOrTab := by
    rintro ⟨rest, shape⟩
    have mem : '#' ∈ tail.dropWhile Reader.isSpaceOrTab := by
      rw [← shape]
      exact mem_cons_self
    exact unmarked.noHash (behind.subset ((dropWhile_sublist _).subset mem))
  rw [stagePragma, Reader.read?_bind]
  show (some ((), tail.dropWhile Reader.isSpaceOrTab)).bind _ = none
  rw [Option.bind_some, Reader.read?_bind, literal_fails noHash]
  rfl

theorem layoutUniform_fails {tail : List Char} (behind : tail <:+ text.toList) :
    Binding.layoutUniform.read? tail = none := by
  have absent : ¬ "layout".toList <+: tail :=
    fun front => unmarked.noLayout (front.isInfix.trans behind.isInfix)
  rw [Binding.layoutUniform, Reader.read?_bind, literal_fails absent]
  rfl

theorem table_unmarked : (Binding.table text).value = [] := by
  have samplers : findAll anywhere Binding.samplerText text = [] :=
    findAllFrom_fails (fun tail behind => by
      rw [Binding.samplerText, Reader.read?_bind, layoutUniform_fails unmarked behind]
      rfl) none 0
  have blocks : findAll anywhere Binding.blockHead text = [] :=
    findAllFrom_fails (fun tail behind => by
      rw [Binding.blockHead, Reader.read?_bind, layoutUniform_fails unmarked behind]
      rfl) none 0
  rw [Binding.table, samplers, blocks]
  exact mergeSort_nil

theorem macrosOf_unmarked : (macrosOf (lex text)).value = [] := by
  have undirected := (splits_lexemes text.toList).undirected unmarked.noHash
  refine macrosOf_undirected fun token mem => ?_
  have listed := mem_map_of_mem (f := lexeme) mem
  exact undirected _ listed

end Unmarked

/-! Texts put together. -/

theorem Unmarked.append_cons {left right : List Char} {c : Char} (front : Unmarked left)
    (back : Unmarked right) (apart : c ∉ "#layout".toList) : Unmarked (left ++ c :: right) where
  noHash := by
    intro mem
    rcases mem_append.mp mem with inLeft | inRest
    · exact front.noHash inLeft
    · rcases mem_cons.mp inRest with rfl | inRight
      · exact apart (by decide)
      · exact back.noHash inRight
  noLayout := by
    intro inside
    have apartLayout : c ∉ "layout".toList := fun mem => apart (mem_cons_of_mem '#' mem)
    rcases infix_append_cons apartLayout inside with inLeft | inRight
    · exact front.noLayout inLeft
    · exact back.noLayout inRight

theorem unmarked_nil : Unmarked [] :=
  ⟨by simp, by decide⟩

theorem Unmarked.append_lines {left right sep : List Char} (front : Unmarked left)
    (back : Unmarked right) (lines : ∀ c ∈ sep, c = '\n') (present : sep ≠ []) :
    Unmarked (left ++ (sep ++ right)) := by
  induction sep generalizing left with
  | nil => exact absurd rfl present
  | cons c rest ih =>
    obtain rfl := lines c mem_cons_self
    by_cases last : rest = []
    · rw [last]
      exact front.append_cons back (by decide)
    · have later := ih unmarked_nil (forall_mem_cons.mp lines).2 last
      exact front.append_cons later (by decide)

/-- Unmarked texts with line ends between them are unmarked. -/
theorem unmarked_intercalate {sep : String} (lines : ∀ c ∈ sep.toList, c = '\n')
    (present : sep.toList ≠ []) {texts : List String}
    (each : ∀ text ∈ texts, Unmarked text.toList) :
    Unmarked (String.intercalate sep texts).toList := by
  induction texts with
  | nil => exact unmarked_nil
  | cons text rest ih =>
    have here := each text mem_cons_self
    cases rest with
    | nil => rwa [String.intercalate_singleton]
    | cons second more =>
      have later := ih (forall_mem_cons.mp each).2
      rw [String.intercalate_cons_cons, String.toList_append, String.toList_append, append_assoc]
      exact here.append_lines later lines present

end WebShader.Preamble

namespace WebShader.Token

open List

variable {piece : Lexeme} {pieces : List Lexeme}

/-! Code of placed lexemes. -/

theorem codeTokens_place_append (plain : Undirected pieces) (offset : Nat) (others : List Lexeme) :
    codeTokens (place offset (pieces ++ others)) =
      codeTokens (place offset pieces) ++ codeTokens (place (offset + width pieces) others) := by
  have line : (place offset pieces).foldl onDirective false = false := by
    rw [foldl_onDirective, lexeme_place, plain.state]
  rw [place_parts, codeTokens_append line]

theorem codeTokens_place_cons (code : isCode piece) (offset : Nat) (rest : List Lexeme) :
    codeTokens (place offset (piece :: rest)) = ⟨piece.kind, String.ofList piece.text, offset⟩ ::
        codeTokens (place (offset + piece.text.length) rest) := by
  grind [isCode, lexeme, place, codeTokens, codeFrom_cons, map_token_codeFrom]

theorem codeTokens_place_trivia (trivia : piece.kind.isTrivia) (offset : Nat) (rest : List Lexeme) :
    codeTokens (place offset (piece :: rest)) =
      codeTokens (place (offset + piece.text.length) rest) := by
  have plain : Undirected [piece] := by
    intro other mem directive
    rw [mem_singleton.mp mem] at directive
    rw [directive] at trivia
    cases trivia
  have silent : Silent ((place offset [piece]).map lexeme) := by
    rw [lexeme_place]
    refine ⟨?_, plain.state⟩
    rw [plain.codePieces, filter_cons_of_neg (by simp [isCode, trivia])]
    rfl
  rw [← singleton_append, codeTokens_place_append plain, codeTokens_silent silent,
    nil_append, width_cons, width_nil, Nat.add_zero]

theorem lexeme_codeTokens_place (plain : Undirected pieces) (offset : Nat) :
    (codeTokens (place offset pieces)).map lexeme = pieces.filter isCode := by
  rw [lexeme_codeTokens, lexeme_place, plain.codePieces]

/-- Code at both ends of some lexemes stands at both ends of their text. -/
theorem codeTokens_place_ends (plain : Undirected pieces) (starts : pieces.head?.any isCode)
    (ends : pieces.getLast?.any isCode) (offset : Nat) :
    (codeTokens (place offset pieces)).head?.map Token.start = some offset ∧
      (codeTokens (place offset pieces)).getLast?.map Token.stop = some (offset + width pieces) := by
  constructor
  · cases pieces with
    | nil => cases starts
    | cons piece rest =>
      rw [codeTokens_place_cons starts]
      rfl
  · rcases eq_nil_or_concat pieces with rfl | ⟨front, piece, rfl⟩
    · cases starts
    · rw [concat_eq_append] at plain ends ⊢
      have code : isCode piece := by simpa using ends
      rw [codeTokens_place_append plain.append.1, codeTokens_place_cons code]
      simp [codeTokens, place, codeFrom, Token.stop, Nat.add_assoc]

theorem ArrayGroups.closed (groups : ArrayGroups pieces) : Closed pieces := by
  induction groups with
  | nil => exact closed_nil
  | @group inside rest nested _ ih =>
    cases rest with
    | nil => exact closed_ended (punct '[' :: inside) (by decide)
    | cons piece more =>
      have shape : punct '[' :: (inside ++ punct ']' :: piece :: more) =
          (punct '[' :: (inside ++ [punct ']'])) ++ piece :: more := by simp
      rw [shape]
      exact closed_of_getLast? ih (cons_ne_nil _ _)

end WebShader.Token

namespace WebShader.Preamble

open List Token Definition

/-! Structures and functions. -/

structure SpelledStruct where
  definition : StructDefinition
  item : StructItem
  bare : item.lead = []
  spelled : lexemes definition.text.toList = item.core
  named : item.name = definition.name
  unmarked : Unmarked definition.text.toList

structure SpelledFunction where
  definition : FunctionDefinition
  item : FunctionItem
  spelled : lexemes definition.text.toList = item.pieces
  named : item.name = definition.name
  typed : item.returnType = definition.returnType
  parameters : (item.definition 0).parameters = definition.parameters
  unmarked : Unmarked definition.text.toList

namespace SpelledStruct

variable (spelled : SpelledStruct)

theorem pieces_eq : (Item.struct spelled.item).pieces = spelled.item.core := by
  rw [Item.pieces, StructItem.pieces, spelled.bare, nil_append]

def entry : Entry where
  text := spelled.definition.text
  item := .struct spelled.item
  spelled := spelled.spelled.trans spelled.pieces_eq.symm
  closed := by
    rw [spelled.pieces_eq]
    have shape : spelled.item.core = spelled.item.head ++ punct '\x7b' :: (spelled.item.body ++
        punct '\x7d' :: spelled.item.tail) ++ [punct ';'] := by simp [StructItem.core]
    rw [shape]
    exact closed_ended _ (by decide)
  closes := by
    have leads := spelled.item.leads
    rw [spelled.bare] at leads
    exact map_eq_nil_iff.mp leads.symm

end SpelledStruct

namespace SpelledFunction

variable (spelled : SpelledFunction)

def entry : Entry where
  text := spelled.definition.text
  item := .function spelled.item
  spelled := spelled.spelled
  closed := by
    have shape : spelled.item.pieces = spelled.item.opening ++ spelled.item.body ++ [punct '\x7d'] :=
      (append_assoc _ _ _).symm
    rw [Item.pieces, shape]
    exact closed_ended _ (by decide)
  closes := trivial

end SpelledFunction

/-! Declarations. -/

/-- The item of a text that is one declaration. -/
structure SpelledDeclaration where
  text : String
  isConst : Bool
  typeName : String
  declarators : List DeclaratorCode
  present : declarators ≠ []
  plain : PlainType typeName
  apart : ∀ declarator ∈ declarators, namesApart declarator.code = true
  spelled : (lexemes text.toList).filter isCode = declarationCode isConst typeName declarators
  ends : (lexemes text.toList).getLast? = some (punct ';')
  unmarked : Unmarked text.toList

namespace SpelledDeclaration

variable (spelled : SpelledDeclaration)

theorem undirected : Undirected (lexemes spelled.text.toList) :=
  (splits_lexemes spelled.text.toList).undirected spelled.unmarked.noHash

theorem quiet : Quiet true (lexemes spelled.text.toList) ∧
    Nested false (lexemes spelled.text.toList) false :=
  quiet_declaration spelled.plain spelled.present spelled.apart spelled.undirected spelled.spelled

def entry : Entry where
  text := spelled.text
  item := .statement (lexemes spelled.text.toList) spelled.quiet.1 spelled.quiet.2
  spelled := rfl
  closed := by
    obtain ⟨front, shape⟩ := getLast?_eq_some_iff.mp spelled.ends
    rw [Item.pieces, shape]
    exact closed_ended front (by decide)
  closes := by
    rw [Item.Closes, spelled.undirected.codePieces, spelled.spelled, declarationCode,
      ← cons_append, ← append_assoc, getLast?_concat]

def tokens : List Token :=
  codeTokens (place 0 (lexemes spelled.text.toList))

theorem lexeme_tokens : spelled.tokens.map lexeme =
    declarationCode spelled.isConst spelled.typeName spelled.declarators := by
  rw [tokens, lexeme_codeTokens_place spelled.undirected, spelled.spelled]

/-- The declaration is the only statement of its text. -/
theorem statements : statementsFrom 0 [] (spelled.entry.item.visible 0) = [spelled.tokens] := by
  have one := statementsFrom_declaration spelled.lexeme_tokens []
  rw [append_nil] at one
  exact one

end SpelledDeclaration

theorem slice_all (text : String) : Text.slice text 0 text.length = text := by
  rw [Text.slice, drop_zero, Nat.sub_zero, ← String.length_toList, take_length,
    String.ofList_toList]

theorem width_lexemes (text : String) : width (lexemes text.toList) = text.length := by
  rw [width, (splits_lexemes text.toList).text_eq, String.length_toList]

/-- A constant declaration whose text starts with its qualifier. -/
structure SpelledConst where
  written : SpelledDeclaration
  constant : written.isConst = true
  starts : (lexemes written.text.toList).head? = some (word "const")

namespace SpelledConst

variable (spelled : SpelledConst)

def definition : ConstDefinition where
  typeName := spelled.written.typeName
  names := spelled.written.declarators.map DeclaratorCode.name
  text := spelled.written.text

/-- A constant is read from its text. -/
theorem declared : ∃ read, read.map Declarator.name = spelled.definition.names ∧
    declaration? spelled.written.text spelled.written.tokens =
      some ⟨true, spelled.definition.typeName, read, spelled.definition.text⟩ := by
  obtain ⟨read, names, reads⟩ := declaration?_code spelled.written.plain spelled.written.present
    spelled.written.lexeme_tokens spelled.written.text
  refine ⟨read, names, ?_⟩
  obtain ⟨first, last⟩ := codeTokens_place_ends spelled.written.undirected
    (by rw [spelled.starts]; rfl) (by rw [spelled.written.ends]; rfl) 0
  rw [reads, SpelledDeclaration.tokens, first, last, Option.getD_some, Option.getD_some,
    Nat.zero_add, width_lexemes, slice_all, spelled.constant]
  rfl

end SpelledConst

/-! Globals. -/

/-- An initial value: code at both ends and no blanks around it, no comment and no string, one part
of a declaration, and no two names next to each other. -/
structure InitialValue (text : String) : Prop where
  starts : (lexemes text.toList).head?.any isCode = true
  ends : (lexemes text.toList).getLast?.any isCode = true
  trimmed : Text.trim text = text
  bare : ∀ piece ∈ lexemes text.toList, piece.kind ≠ .comment ∧ piece.kind ≠ .string
  onePart : OnePart ((lexemes text.toList).filter isCode)
  apart : namesApart ((lexemes text.toList).filter isCode) = true

/-- A global whose declaration can be read. The array sizes are code only: a comment between them
would be lost. -/
structure SpelledGlobal where
  global : GlobalVariable
  plain : PlainType global.typeName
  named : isName global.name.toList = true
  groups : ArrayGroups (lexemes global.arraySuffix.toList)
  bare : ∀ piece ∈ lexemes global.arraySuffix.toList, isCode piece = true
  valued : ∀ text ∈ global.initializer, InitialValue text
  claimed : global.claimed = true → global.initializer = none
  unmarked : Unmarked global.declaration.toList

def assignment : Option String → String
  | none => ""
  | some text => " = " ++ text

theorem declaration_eq {global : GlobalVariable}
    (claimed : global.claimed → global.initializer = none) :
    global.declaration = global.typeName ++ " " ++ global.name ++ global.arraySuffix ++
      assignment global.initializer ++ ";" := by
  rw [GlobalVariable.declaration]
  split
  next unclaimed valued => simp [valued, assignment, String.append_assoc]
  next other =>
    have none : global.initializer = none := by
      cases value : global.initializer with
      | none => rfl
      | some text => grind
    simp [none, assignment, GlobalVariable.bareDeclaration]

def assignmentPieces : Option String → List Lexeme
  | none => []
  | some text => blank :: punct '=' :: blank :: lexemes text.toList

theorem blankLength_code {text : List Char} {pieces : List Lexeme} (splits : Splits text pieces)
    (starts : pieces.head?.any isCode) : blankLength text = 0 := by
  cases splits with
  | nil => cases starts
  | @cons kind front rest others leads _ =>
    refine Decidable.byContradiction fun present => ?_
    obtain ⟨rfl, -⟩ := Prod.mk.inj ((frontToken_blank present).symm.trans leads)
    cases starts

theorem splits_assignment {value : Option String} (valued : ∀ text ∈ value, InitialValue text) :
    Splits ((assignment value).toList ++ [';']) (assignmentPieces value ++ [punct ';']) := by
  have ended : Splits [] [] := .nil
  cases value with
  | none => exact ended.punct_cons (by decide)
  | some text =>
    have initial := valued text rfl
    have own := splits_lexemes text.toList
    have plain : blankLength (text.toList ++ [';']) = 0 := by
      rw [blankLength_stopsAt, blankLength_code own initial.starts]
    have signed : Splits ('=' :: ' ' :: (text.toList ++ [';']))
        (punct '=' :: blank :: (lexemes text.toList ++ [punct ';'])) := by
      have leads : frontToken (['='] ++ ' ' :: (text.toList ++ [';'])) = (.punct, ['='].length) :=
        frontToken_equals (by simp)
      exact .cons leads ((own.append_semicolon initial.bare ended).blank_cons plain)
    have shape : (assignment (some text)).toList ++ [';'] =
        ' ' :: '=' :: ' ' :: (text.toList ++ [';']) := by
      simp [assignment]
    rw [shape]
    exact signed.blank_cons (by simp [blankLength, isInlineBlank])

namespace SpelledGlobal

variable (spelled : SpelledGlobal)

def tailPieces : List Lexeme :=
  lexemes spelled.global.arraySuffix.toList ++
    (assignmentPieces spelled.global.initializer ++ [punct ';'])

def pieces : List Lexeme :=
  word spelled.global.typeName :: blank :: word spelled.global.name :: spelled.tailPieces

theorem head_tailPieces {text : List Char} (splits : Splits text spelled.tailPieces) :
    text.head?.any Text.isWord = false := by
  have front : ∃ c rest, spelled.tailPieces.flatMap Lexeme.text = c :: rest ∧
      Text.isWord c = false := by
    have groups := spelled.groups
    rw [tailPieces]
    generalize lexemes spelled.global.arraySuffix.toList = array at groups ⊢
    cases groups with
    | nil =>
      cases spelled.global.initializer with
      | none => exact ⟨';', _, rfl, by decide⟩
      | some text => exact ⟨' ', _, rfl, by decide⟩
    | group nested others => exact ⟨'[', _, rfl, by decide⟩
  obtain ⟨c, rest, shape, notWord⟩ := front
  rw [← splits.text_eq, shape]
  exact notWord

theorem splits : Splits spelled.global.declaration.toList spelled.pieces := by
  have tail := (splits_lexemes spelled.global.arraySuffix.toList).append_closed spelled.groups.closed
    (splits_assignment spelled.valued)
  have named := tail.word_append spelled.named (spelled.head_tailPieces tail)
  have spaced := named.blank_cons (blankLength_startsName (isName.startsName spelled.named _))
  have notWord : Text.isWord ' ' = false := by decide
  have typed := spaced.word_append spelled.plain.named (by exact notWord)
  rw [declaration_eq spelled.claimed]
  simpa [pieces, tailPieces] using typed

def valueCode : Option String → List Lexeme
  | none => []
  | some text => (lexemes text.toList).filter isCode

def declarator : DeclaratorCode where
  name := spelled.global.name
  array := lexemes spelled.global.arraySuffix.toList
  value := valueCode spelled.global.initializer
  groups := spelled.groups
  onePart := by
    cases value : spelled.global.initializer with
    | none => exact ArrayGroups.nil.onePart
    | some text => exact (spelled.valued text value).onePart

theorem value_declarator : spelled.declarator.value = valueCode spelled.global.initializer := rfl

theorem filter_assignment :
    (assignmentPieces spelled.global.initializer).filter isCode = spelled.declarator.initial := by
  cases value : spelled.global.initializer with
  | none => rw [DeclaratorCode.initial, value_declarator, value, valueCode]; rfl
  | some text =>
    have starts := (spelled.valued text value).starts
    have present : (lexemes text.toList).filter isCode ≠ [] := by
      cases shape : lexemes text.toList with
      | nil =>
        rw [shape] at starts
        cases starts
      | cons first rest => grind
    have code : isCode blank = false ∧ isCode (punct '=') := by decide
    simp_all [assignmentPieces, DeclaratorCode.initial, value_declarator, valueCode]

theorem filter_pieces : spelled.pieces.filter isCode =
    declarationCode false spelled.global.typeName [spelled.declarator] := by
  have array : (lexemes spelled.global.arraySuffix.toList).filter isCode =
      spelled.declarator.array := filter_eq_self.mpr spelled.bare
  have semicolon : [punct ';'].filter isCode = [punct ';'] := by decide
  have word (name : String) (rest : List Lexeme) : (word name :: rest).filter isCode =
      word name :: rest.filter isCode := filter_cons_of_pos rfl
  have blank (rest : List Lexeme) : (blank :: rest).filter isCode = rest.filter isCode :=
    filter_cons_of_neg (by decide)
  rw [pieces, word, blank, word, tailPieces, filter_append, filter_append, array,
    spelled.filter_assignment, ← append_assoc]
  rfl

theorem apart_declarator : namesApart spelled.declarator.code := by
  have array : namesApart (word spelled.global.name :: spelled.declarator.array) := by
    have own := (splits_lexemes spelled.global.arraySuffix.toList).namesApart
    have groups := spelled.groups
    show namesApart (word spelled.global.name :: lexemes spelled.global.arraySuffix.toList) = true
    generalize lexemes spelled.global.arraySuffix.toList = pieces at own groups ⊢
    cases groups with
    | nil => rfl
    | group nested others =>
      rw [namesApart, own]
      rfl
  rw [DeclaratorCode.code, ← cons_append, DeclaratorCode.initial]
  split
  · rw [append_nil]
    exact array
  · have value : namesApart spelled.declarator.value := by
      rw [value_declarator]
      cases value : spelled.global.initializer with
      | none => rfl
      | some text => exact (spelled.valued text value).apart
    exact (namesApart_punct _ _ _).trans (by rw [value, Bool.and_true]; exact array)

def written : SpelledDeclaration where
  text := spelled.global.declaration
  isConst := false
  typeName := spelled.global.typeName
  declarators := [spelled.declarator]
  present := cons_ne_nil _ _
  plain := spelled.plain
  apart := by
    intro declarator member
    rw [mem_singleton.mp member]
    exact spelled.apart_declarator
  spelled := by rw [spelled.splits.lexemes_eq, spelled.filter_pieces]
  ends := by
    rw [spelled.splits.lexemes_eq, pieces, tailPieces, ← append_assoc, ← cons_append,
      ← cons_append, ← cons_append, getLast?_concat]
  unmarked := spelled.unmarked

def lead : String :=
  spelled.global.typeName ++ " " ++ spelled.global.name ++ spelled.global.arraySuffix

def arrayTokens : List Token :=
  codeTokens (place (spelled.global.typeName.length + 1 + spelled.global.name.length)
    (lexemes spelled.global.arraySuffix.toList))

def assignmentTokens : List Token :=
  codeTokens (place spelled.lead.length (assignmentPieces spelled.global.initializer))

theorem undirected_pieces : Undirected spelled.pieces := by
  rw [← spelled.splits.lexemes_eq]
  exact spelled.written.undirected

theorem undirected_tail : Undirected (lexemes spelled.global.arraySuffix.toList) ∧
    Undirected (assignmentPieces spelled.global.initializer) := by
  have plain := spelled.undirected_pieces.tail.tail.tail.append
  exact ⟨plain.1, plain.2.append.1⟩

theorem tokens_eq : ∃ semicolon, spelled.written.tokens = ⟨.ident, spelled.global.typeName, 0⟩ ::
      (⟨.ident, spelled.global.name, spelled.global.typeName.length + 1⟩ ::
        (spelled.arrayTokens ++ spelled.assignmentTokens) ++ [semicolon]) := by
  obtain ⟨plainArray, plainAssignment⟩ := spelled.undirected_tail
  refine ⟨⟨.punct, ";", spelled.lead.length +
    width (assignmentPieces spelled.global.initializer)⟩, ?_⟩
  have leadLength : spelled.global.typeName.length + 1 + spelled.global.name.length +
      width (lexemes spelled.global.arraySuffix.toList) = spelled.lead.length := by
    rw [width_lexemes, lead, String.length_append, String.length_append, String.length_append]
    rfl
  have own : lexemes spelled.written.text.toList = spelled.pieces := spelled.splits.lexemes_eq
  rw [SpelledDeclaration.tokens, own, pieces, codeTokens_place_cons rfl, codeTokens_place_trivia rfl,
    codeTokens_place_cons rfl, tailPieces, codeTokens_place_append plainArray,
    codeTokens_place_append plainAssignment]
  simp only [word, blank, String.ofList_toList, String.length_toList, Nat.zero_add, length_cons,
    length_nil]
  rw [leadLength, ← append_assoc]
  rfl

/-- The text of the initial value. -/
theorem spanText_assignment :
    spanText? spelled.global.declaration (spelled.assignmentTokens.drop 1) =
      spelled.global.initializer := by
  rw [assignmentTokens]
  cases value : spelled.global.initializer with
  | none => rfl
  | some text =>
    have initial := spelled.valued text value
    have plain : Undirected (lexemes text.toList) := by
      have all := spelled.undirected_tail.2
      rw [value] at all
      exact all.tail.tail.tail
    have shape : spelled.global.declaration = spelled.lead ++ " = " ++ text ++ ";" := by
      rw [declaration_eq spelled.claimed, value, lead, assignment]
      simp only [String.append_assoc]
    obtain ⟨first, last⟩ :=
      codeTokens_place_ends plain initial.starts initial.ends (spelled.lead.length + 3)
    have tokens : (codeTokens (place spelled.lead.length (assignmentPieces (some text)))).drop 1 =
        codeTokens (place (spelled.lead.length + 3) (lexemes text.toList)) := by
      rw [assignmentPieces, codeTokens_place_trivia rfl, codeTokens_place_cons rfl,
        drop_succ_cons, codeTokens_place_trivia rfl]
      rfl
    have length : (spelled.lead ++ " = ").length = spelled.lead.length + 3 := by
      rw [String.length_append]
      rfl
    have cut : Text.slice (spelled.lead ++ " = " ++ text ++ ";") (spelled.lead.length + 3)
        (spelled.lead.length + 3 + text.length) = text := by
      have inner := @slice_inside (spelled.lead ++ " = ") text ";" 0 text.length (Nat.le_refl _)
      rwa [length, Nat.zero_add, Nat.add_comm text.length, slice_all] at inner
    rw [tokens, spanText?_eq first last, width_lexemes, shape, cut, initial.trimmed]

/-- A global is read from its declaration. -/
theorem declared : ∃ text, declaration? spelled.global.declaration spelled.written.tokens =
    some ⟨false, spelled.global.typeName, [⟨spelled.global.name, spelled.global.arraySuffix,
      spelled.global.initializer⟩], text⟩ := by
  obtain ⟨semicolon, tokens⟩ := spelled.tokens_eq
  obtain ⟨plainArray, plainAssignment⟩ := spelled.undirected_tail
  have array : spelled.arrayTokens.map lexeme = spelled.declarator.array := by
    rw [arrayTokens, lexeme_codeTokens_place plainArray]
    exact filter_eq_self.mpr spelled.bare
  have assignment : spelled.assignmentTokens.map lexeme = spelled.declarator.initial := by
    rw [assignmentTokens, lexeme_codeTokens_place plainAssignment, spelled.filter_assignment]
  have length : spelled.declarator.array.length = spelled.arrayTokens.length := by
    rw [← array, length_map]
  have arrayText : String.ofList (spelled.declarator.array.flatMap Lexeme.text) =
      spelled.global.arraySuffix := by
    rw [declarator, (splits_lexemes spelled.global.arraySuffix.toList).text_eq, String.ofList_toList]
  have lead : ([] : List Token).map lexeme = leadCode false := rfl
  have isType : lexeme ⟨.ident, spelled.global.typeName, 0⟩ = word spelled.global.typeName := rfl
  have body : (⟨.ident, spelled.global.name, spelled.global.typeName.length + 1⟩ ::
      (spelled.arrayTokens ++ spelled.assignmentTokens)).map lexeme = spelled.declarator.code := by
    rw [map_cons, map_append, array, assignment]
    rfl
  obtain ⟨text, reads⟩ := declaration?_single spelled.plain lead isType body
    spelled.global.declaration
  rw [length, arrayText, drop_succ_cons, ← drop_drop, List.drop_left,
    spelled.spanText_assignment] at reads
  exact ⟨text, by rw [tokens]; exact reads⟩

end SpelledGlobal

end WebShader.Preamble
