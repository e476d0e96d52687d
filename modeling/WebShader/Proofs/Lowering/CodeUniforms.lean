import WebShader.Proofs.Lowering.Declaring

/-!
Contract: the uniforms that the code of a source declares.

Owns: the declarators of uniform declarations, read from the code and not from
its lines; the names that code refers to, read from lexemes; and what new
declarations add to both.

Comments and directive lines hold no declaration. One declaration may have
several declarators, and a block has none.
-/

namespace WebShader.Lowering

open List Token
open Text
open Sharing

variable {name : String} {candidate : Candidate}

/-! Declarators. -/

/-- Where a walk over code stands: outside of uniform declarations, or inside one with the last
name of the declarator, the number of open brackets, and whether a value is given. -/
inductive Stand where
  | outside
  | inside (name : Option String) (depth : Nat) (given : Bool)
  deriving DecidableEq, Repr

def isMark (piece : Lexeme) (marks : List Char) : Bool :=
  piece.kind == .punct && marks.any fun mark => piece.text == [mark]

namespace Stand

def step (stand : Stand) (piece : Lexeme) : Stand :=
  match stand with
  | .outside =>
    if piece == ⟨.ident, "uniform".toList⟩ then .inside none 0 false else .outside
  | .inside name depth given =>
    if depth == 0 && !given && isMark piece ['\x7b'] then .outside
    else if isMark piece ['(', '[', '\x7b'] then .inside name (depth + 1) given
    else if isMark piece [')', ']', '\x7d'] then .inside name (depth - 1) given
    else if depth != 0 then .inside name depth given
    else if isMark piece [';'] then .outside
    else if isMark piece [','] then .inside none 0 false
    else if isMark piece ['='] then .inside name 0 true
    else if piece.kind == .ident && !given then .inside (some (String.ofList piece.text)) 0 false
    else .inside name depth given

def declared? (stand : Stand) (piece : Lexeme) : Option String :=
  match stand with
  | .inside name 0 _ => if isMark piece [';', ','] then name else none
  | _ => none

def after (stand : Stand) (pieces : List Lexeme) : Stand :=
  pieces.foldl step stand

def declares (stand : Stand) : List Lexeme → List String
  | [] => []
  | piece :: rest => (stand.declared? piece).toList ++ (stand.step piece).declares rest

theorem declares_append (stand : Stand) (pieces others : List Lexeme) :
    stand.declares (pieces ++ others) =
      stand.declares pieces ++ (stand.after pieces).declares others := by
  induction pieces generalizing stand with
  | nil => rfl
  | cons piece rest ih =>
    rw [cons_append, declares, ih, declares, append_assoc]
    rfl

end Stand

def codeUniforms (source : String) : List String :=
  Stand.outside.declares ((code (lex source)).map fun placed => lexeme placed.token)

theorem codeUniforms_eq (source : String) :
    codeUniforms source = Stand.outside.declares (codePieces false (lexemes source.toList)) := by
  rw [codeUniforms, code, codeFrom_lexemes]
  rfl

/-! References as lexemes. -/

def pragmaAfter (inPragma : Bool) (piece : Lexeme) : Bool :=
  match piece.kind with
  | .newline => false
  | .directive => trim (String.ofList (piece.text.drop 1)) == "pragma"
  | _ => inPragma

def referred (selects inPragma : Bool) : List Lexeme → List String
  | [] => []
  | piece :: rest =>
    let others := referred (selectsAfter selects [piece]) (pragmaAfter inPragma piece) rest
    if piece.kind == .ident && !inPragma && !selects then String.ofList piece.text :: others
    else others

theorem referencesFrom_eq (prev : Option Token) (inPragma : Bool) (tokens : List Token) :
    referencesFrom prev inPragma tokens =
      referred (selectsMember prev) inPragma (tokens.map lexeme) := by
  induction tokens generalizing prev inPragma with
  | nil => rfl
  | cons token rest ih =>
    have text : String.ofList (lexeme token).text = token.text := String.ofList_toList
    rw [referencesFrom, map_cons, referred, ih, selectsMember_significantAfter, text]
    rfl

theorem references_eq (source : String) :
    references source = referred false false (lexemes source.toList) :=
  referencesFrom_eq none false (lex source)

theorem referred_append (selects inPragma : Bool) (pieces others : List Lexeme) :
    referred selects inPragma (pieces ++ others) = referred selects inPragma pieces ++
        referred (selectsAfter selects pieces) (pieces.foldl pragmaAfter inPragma) others := by
  induction pieces generalizing selects inPragma with
  | nil => rfl
  | cons piece rest ih =>
    rw [cons_append, referred, ih, referred]
    split
    · rfl
    · rfl

theorem pragmaAfter_newline (inPragma : Bool) (piece : Lexeme) (newline : piece.kind = .newline) :
    pragmaAfter inPragma piece = false := by
  rw [pragmaAfter, newline]

theorem ident_of_mem_referred {selects inPragma : Bool} {pieces : List Lexeme}
    (listed : name ∈ referred selects inPragma pieces) : ⟨.ident, name.toList⟩ ∈ pieces := by
  induction pieces generalizing selects inPragma with
  | nil => cases listed
  | cons piece rest ih =>
    rw [referred] at listed
    split at listed
    next shape =>
      rcases mem_cons.mp listed with rfl | later
      · simp only [Bool.and_eq_true, beq_iff_eq] at shape
        rw [String.toList_ofList, ← shape.1.1]
        exact mem_cons_self
      · exact mem_cons_of_mem _ (ih later)
    · exact mem_cons_of_mem _ (ih listed)

/-! New declarations. -/

/-- The names in a declaration other than the one that it declares. -/
def Candidate.words (candidate : Candidate) : List String :=
  "uniform" :: candidate.typeName ::
    ((lexemes candidate.arraySuffix.toList).filter (·.kind == .ident)).map
      fun piece => String.ofList piece.text

theorem Candidate.name_of_mem_pieces (listed : ⟨.ident, name.toList⟩ ∈ candidate.pieces) :
    name = candidate.name ∨ name ∈ candidate.words := by
  simp only [Candidate.pieces, mem_append, mem_cons, not_mem_nil, or_false,
    Lexeme.mk.injEq, reduceCtorEq, true_and, false_and, false_or, String.toList_inj] at listed
  rw [Candidate.words, mem_cons, mem_cons, mem_map]
  rcases listed with (rfl | rfl | rfl) | suffix
  · exact .inr (.inl rfl)
  · exact .inr (.inr (.inl rfl))
  · exact .inl rfl
  · exact .inr (.inr (.inr ⟨_, mem_filter.mpr ⟨suffix, rfl⟩, String.ofList_toList⟩))

/-- The walk goes over lexemes from one stand to another and finds the names that they declare. -/
structure Walks (stand : Stand) (pieces : List Lexeme) (names : List String) (next : Stand) :
    Prop where
  finds : stand.declares (codePieces false pieces) = names
  lands : stand.after (codePieces false pieces) = next
  line : pieces.foldl directiveAfter false = false

namespace Walks

variable {stand next last : Stand} {piece : Lexeme} {pieces others : List Lexeme}
  {names further : List String}

theorem nil : Walks stand [] [] stand :=
  ⟨rfl, rfl, rfl⟩

theorem declares_append (walks : Walks stand pieces names next) (others : List Lexeme) :
    stand.declares (codePieces false (pieces ++ others)) =
      names ++ next.declares (codePieces false others) := by
  rw [codePieces_append, Stand.declares_append, walks.finds, walks.lands, walks.line]

theorem append (walks : Walks stand pieces names next) (later : Walks next others further last) :
    Walks stand (pieces ++ others) (names ++ further) last where
  finds := by rw [walks.declares_append, later.finds]
  lands := by
    rw [codePieces_append, walks.line, Stand.after, foldl_append]
    show Stand.after (stand.after _) _ = last
    rw [walks.lands, later.lands]
  line := by rw [foldl_append, walks.line, later.line]

theorem trivia (isTrivia : piece.kind.isTrivia) : Walks stand [piece] [] stand := by
  have line : directiveAfter false piece = false := by
    rw [directiveAfter]
    split
    · rfl
    next directive =>
      rw [directive] at isTrivia
      cases isTrivia
    · rfl
  have none : codePieces false [piece] = [] := by
    rw [codePieces, line, isTrivia]
    rfl
  exact ⟨by rw [none]; rfl, by rw [none]; rfl, line⟩

theorem code (notTrivia : piece.kind.isTrivia = false) (notDirective : piece.kind ≠ .directive) :
    Walks stand [piece] (stand.declared? piece).toList (stand.step piece) := by
  have line : directiveAfter false piece = false := by
    rw [directiveAfter]
    split
    · rfl
    next directive => exact absurd directive notDirective
    · rfl
  have single : codePieces false [piece] = [piece] := by
    rw [codePieces, line, notTrivia]
    rfl
  exact ⟨by rw [single, Stand.declares, Stand.declares, append_nil], by rw [single]; rfl, line⟩

end Walks

/-- A size leaves the walk where it stands inside of brackets. -/
theorem step_size {piece : Lexeme} (isSize : isSizePiece piece)
    (name : Option String) : (Stand.inside name 1 false).step piece = .inside name 1 false := by
  obtain ⟨kind, text⟩ := piece
  by_cases punct : kind = .punct
  · obtain rfl := punct
    have texts : text = ['+'] ∨ text = ['-'] ∨ text = ['*'] ∨ text = ['/'] := by
      simpa [isSizePiece] using isSize
    rcases texts with rfl | rfl | rfl | rfl <;> rfl
  · simp [Stand.step, isMark, punct]

theorem walks_size {size : List Lexeme} (sizes : ∀ piece ∈ size, isSizePiece piece)
    (name : Option String) : Walks (.inside name 1 false) size [] (.inside name 1 false) := by
  induction size with
  | nil => exact .nil
  | cons piece rest ih =>
    obtain ⟨here, later⟩ := forall_mem_cons.mp sizes
    have first : Walks (.inside name 1 false) [piece] [] (.inside name 1 false) := by
      cases isTrivia : piece.kind.isTrivia with
      | true => exact .trivia isTrivia
      | false =>
        have notDirective : piece.kind ≠ .directive := by
          intro directive
          rw [isSizePiece, directive] at here
          cases here
        have walks : Walks (.inside name 1 false) [piece] [] _ := .code isTrivia notDirective
        rwa [step_size here] at walks
    exact first.append (ih later)

theorem walks_suffix {text : List Char} (suffix : isSuffix text) (name : Option String) :
    Walks (.inside name 0 false) (lexemes text) [] (.inside name 0 false) := by
  rcases isSuffix_cases suffix with none | ⟨-, size, shape, sizes⟩
  · rw [none]
    exact .nil
  · have opens : Walks (.inside name 0 false) [openSquare] [] (.inside name 1 false) :=
      .code rfl nofun
    have closes : Walks (.inside name 1 false) [closeSquare] [] (.inside name 0 false) :=
      .code rfl nofun
    rw [shape]
    exact opens.append ((walks_size sizes name).append closes)

/-- A declaration declares its name. -/
theorem Candidate.WellFormed.walks (wellFormed : candidate.WellFormed) :
    Walks .outside candidate.pieces [candidate.name] .outside := by
  have opens : Walks .outside [⟨.ident, "uniform".toList⟩] [] (.inside none 0 false) :=
    .code rfl nofun
  have blank (stand : Stand) : Walks stand [⟨.whitespace, [' ']⟩] [] stand := .trivia rfl
  have word (before : Option String) (word : String) :
      Walks (.inside before 0 false) [⟨.ident, word.toList⟩] [] (.inside (some word) 0 false) := by
    have walks : Walks (.inside before 0 false) [⟨.ident, word.toList⟩] []
        (.inside (some (String.ofList word.toList)) 0 false) := .code rfl nofun
    rwa [String.ofList_toList] at walks
  have closes : Walks (.inside (some candidate.name) 0 false) [⟨.punct, [';']⟩]
      [candidate.name] .outside := .code rfl nofun
  have lineEnd : Walks .outside [⟨.newline, ['\n']⟩] [] .outside := .trivia rfl
  have suffix := walks_suffix wellFormed.suffixed (some candidate.name)
  have typed := opens.append ((blank _).append ((word none candidate.typeName).append (blank _)))
  exact (typed.append (word _ candidate.name)).append (suffix.append (closes.append lineEnd))

theorem walks_declarations {candidates : List Candidate}
    (wellFormed : ∀ candidate ∈ candidates, candidate.WellFormed) :
    Walks .outside (candidates.flatMap Candidate.pieces) (candidates.map Candidate.name)
      .outside := by
  induction candidates with
  | nil => exact .nil
  | cons candidate others ih =>
    obtain ⟨here, later⟩ := forall_mem_cons.mp wellFormed
    exact here.walks.append (ih later)

/-- A place for new declarations that is outside of the ones already there. -/
structure Open (source : String) : Prop where
  insertable : Insertable source
  outside : Stand.outside.after (codePieces false (lexemes (headerText source))) = .outside

section Insertion

variable {source : String} (isOpen : Open source) {candidates : List Candidate}
  (wellFormed : ∀ candidate ∈ candidates, candidate.WellFormed)
include isOpen wellFormed

/-- New declarations add their names to those that the code declares. -/
theorem codeUniforms_insertDeclarations (name : String) :
    (codeUniforms (insertDeclarations source (candidates.map Candidate.declaration))).count name =
      (candidates.map Candidate.name).count name + (codeUniforms source).count name := by
  obtain ⟨-, parts, isSettled, -⟩ := isOpen.insertable.parts
  have header : Walks .outside (lexemes (headerText source)) _ .outside :=
    ⟨rfl, isOpen.outside, foldl_settled directiveAfter_newline isSettled⟩
  have declarations := walks_declarations wellFormed
  rw [codeUniforms_eq, lexemes_insertDeclarations isOpen.insertable wellFormed,
    header.declares_append, declarations.declares_append, codeUniforms_eq, parts,
    header.declares_append]
  simp only [count_append]
  omega

/-- A name that the new source refers to is one that the old source refers to, or stands in a new
declaration. -/
theorem references_insertDeclarations (listed : name ∈
      references (insertDeclarations source (candidates.map Candidate.declaration))) :
    name ∈ references source ∨
      ∃ candidate ∈ candidates, name = candidate.name ∨ name ∈ candidate.words := by
  obtain ⟨-, parts, isSettled, plain⟩ := isOpen.insertable.parts
  have headerLine := foldl_settled pragmaAfter_newline isSettled
  have line := foldl_settled pragmaAfter_newline (settled_declarations candidates)
  rw [references_eq, lexemes_insertDeclarations isOpen.insertable wellFormed, referred_append,
    plain, headerLine, referred_append, selectsAfter_plain (declarations_plain wellFormed),
    line, mem_append, mem_append] at listed
  rw [references_eq, parts, referred_append, plain, headerLine, mem_append]
  rcases listed with inHeader | inDeclarations | inBody
  · exact .inl (.inl inHeader)
  · obtain ⟨candidate, mem, inside⟩ := mem_flatMap.mp (ident_of_mem_referred inDeclarations)
    exact .inr ⟨candidate, mem, Candidate.name_of_mem_pieces inside⟩
  · exact .inl (.inr inBody)

end Insertion

end WebShader.Lowering
