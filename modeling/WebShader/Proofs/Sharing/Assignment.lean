import WebShader.Proofs.Sharing.Occurrence

/-!
Contract: the names that a program writes, read off its statements.

Owns: programs as trees of statements and expressions, the writes in them, and
that the report of written names gives these writes.

Does not own: directive lines; the programs here have none.
-/

namespace WebShader.Usage

open List Token
open Sharing (isPoint)

/-! Programs and their writes. -/

/-- Operators that write nothing, with the comma between arguments. -/
def plainOperators : List String :=
  ["+", "-", "!", "~", "*", "/", "%", "<<", ">>", "<", ">", "<=", ">=", "==", "!=", "&", "^", "|",
    "&&", "^^", "||", ","]

inductive Phrase where
  | expression
  | optional
  | accessors
  | statement
  | statements

/-- Statements and expressions. The target of an assignment or a step is a name with accessors. -/
inductive Tree : Phrase → Type where
  | named (name : String) : Tree .expression
  | literal (piece : Lexeme) (value : piece.kind = .number ∨ piece.kind = .string) : Tree .expression
  | paren (inner : Tree .expression) : Tree .expression
  | call (called : Tree .expression) (arguments : Tree .optional) : Tree .expression
  | index (indexed inner : Tree .expression) : Tree .expression
  | select (selected : Tree .expression) (name : String) : Tree .expression
  | unary (text : String) (listed : text ∈ plainOperators) (operand : Tree .expression) :
      Tree .expression
  | binary (left : Tree .expression) (text : String) (listed : text ∈ plainOperators)
      (right : Tree .expression) : Tree .expression
  | conditional (test yes no : Tree .expression) : Tree .expression
  | assign (name : String) (target : Tree .accessors) (text : String)
      (listed : text ∈ assignmentOperators) (value : Tree .expression) : Tree .expression
  | stepAfter (name : String) (target : Tree .accessors) (text : String)
      (listed : text ∈ stepOperators) : Tree .expression
  | stepBefore (text : String) (listed : text ∈ stepOperators) (name : String)
      (target : Tree .accessors) : Tree .expression
  | absent : Tree .optional
  | present (given : Tree .expression) : Tree .optional
  | bare : Tree .accessors
  | subscript (inner : Tree .expression) (others : Tree .accessors) : Tree .accessors
  | member (name : String) (others : Tree .accessors) : Tree .accessors
  | idle : Tree .statement
  | evaluate (value : Tree .expression) : Tree .statement
  | declare (typeName : String) (isType : typeName ∉ statementWords) (name : String)
      (sizes : Tree .accessors) : Tree .statement
  | define (typeName : String) (isType : typeName ∉ statementWords) (name : String)
      (sizes : Tree .accessors) (value : Tree .expression) : Tree .statement
  | block (inner : Tree .statements) : Tree .statement
  /-- An `if` without `else`, or a `while`. -/
  | guarded (keyword : String) (listed : keyword ∈ ["if", "while"]) (test : Tree .expression)
      (body : Tree .statement) : Tree .statement
  | branch (test : Tree .expression) (yes no : Tree .statement) : Tree .statement
  | loop (start : Tree .statement) (test update : Tree .optional) (body : Tree .statement) :
      Tree .statement
  | repeated (body : Tree .statement) (test : Tree .expression) : Tree .statement
  | leave (value : Tree .optional) : Tree .statement
  | empty : Tree .statements
  | sequence (first : Tree .statement) (others : Tree .statements) : Tree .statements

def operator (text : String) : Lexeme :=
  ⟨.punct, text.toList⟩

/-- The variable that is written, and the value of an assignment with `=` if it is one lexeme and
the semicolon of the statement follows. -/
structure Write where
  name : String
  copied : Option (List Char)
  deriving DecidableEq, Repr

def copiedValue (ends : Bool) (text : String) : List Lexeme → Option (List Char)
  | [] => none
  | value :: rest =>
    let isCopy := text == "=" && (rest ++ if ends then [punct ';'] else []).head? == some (punct ';')
    if isCopy then some value.text else none

/-- A word of a statement is taken for a written name if a step operator follows it. -/
def steppedWord (name : String) (pieces : List Lexeme) : List Write :=
  if pieces.head?.any (isOperatorIn stepOperators) then [⟨name, none⟩] else []

namespace Tree

def pieces {phrase : Phrase} : Tree phrase → List Lexeme
  | named name => [word name]
  | literal piece _ => [piece]
  | paren inner => punct '(' :: (inner.pieces ++ [punct ')'])
  | call called arguments => called.pieces ++ punct '(' :: (arguments.pieces ++ [punct ')'])
  | index indexed inner => indexed.pieces ++ punct '[' :: (inner.pieces ++ [punct ']'])
  | select selected name => selected.pieces ++ [punct '.', word name]
  | unary text _ operand => operator text :: operand.pieces
  | binary left text _ right => left.pieces ++ operator text :: right.pieces
  | conditional test yes no =>
    test.pieces ++ punct '?' :: (yes.pieces ++ punct ':' :: no.pieces)
  | assign name target text _ value => word name :: (target.pieces ++ operator text :: value.pieces)
  | stepAfter name target text _ => word name :: (target.pieces ++ [operator text])
  | stepBefore text _ name target => operator text :: word name :: target.pieces
  | absent => []
  | present given => given.pieces
  | bare => []
  | subscript inner others => punct '[' :: (inner.pieces ++ punct ']' :: others.pieces)
  | member name others => punct '.' :: word name :: others.pieces
  | idle => [punct ';']
  | evaluate value => value.pieces ++ [punct ';']
  | declare typeName _ name sizes => word typeName :: word name :: (sizes.pieces ++ [punct ';'])
  | define typeName _ name sizes value =>
    word typeName :: word name :: (sizes.pieces ++ punct '=' :: (value.pieces ++ [punct ';']))
  | block inner => punct '\x7b' :: (inner.pieces ++ [punct '\x7d'])
  | guarded keyword _ test body =>
    word keyword :: punct '(' :: (test.pieces ++ punct ')' :: body.pieces)
  | branch test yes no => word "if" :: punct '(' ::
    (test.pieces ++ punct ')' :: (yes.pieces ++ word "else" :: no.pieces))
  | loop start test update body => word "for" :: punct '(' ::
    (start.pieces ++ (test.pieces ++ punct ';' :: (update.pieces ++ punct ')' :: body.pieces)))
  | repeated body test => word "do" :: (body.pieces ++ word "while" :: punct '(' ::
    (test.pieces ++ [punct ')', punct ';']))
  | leave value => word "return" :: (value.pieces ++ [punct ';'])
  | empty => []
  | sequence first others => first.pieces ++ others.pieces

/-- The writes of a phrase in the order of the text, and whether a semicolon ends the phrase. -/
def writes {phrase : Phrase} (ends : Bool) : Tree phrase → List Write
  | named _ => []
  | literal _ _ => []
  | paren inner => inner.writes false
  | call called arguments => called.writes false ++ arguments.writes false
  | index indexed inner => indexed.writes false ++ inner.writes false
  | select selected _ => selected.writes false
  | unary _ _ operand => operand.writes ends
  | binary left _ _ right => left.writes false ++ right.writes ends
  | conditional test yes no => test.writes false ++ (yes.writes false ++ no.writes ends)
  | assign name target text _ value =>
    ⟨name, copiedValue ends text value.pieces⟩ :: (target.writes false ++ value.writes ends)
  | stepAfter name target _ _ => ⟨name, none⟩ :: target.writes false
  | stepBefore _ _ name target => ⟨name, none⟩ :: target.writes false
  | absent => []
  | present given => given.writes ends
  | bare => []
  | subscript inner others => inner.writes false ++ others.writes false
  | member _ others => others.writes false
  | idle => []
  | evaluate value => value.writes true
  | declare _ _ _ sizes => sizes.writes false
  | define _ _ _ sizes value => sizes.writes false ++ value.writes true
  | block inner => inner.writes false
  | guarded _ _ test body => test.writes false ++ body.writes false
  | branch test yes no => test.writes false ++
    (yes.writes false ++ (steppedWord "else" no.pieces ++ no.writes false))
  | loop start test update body => start.writes false ++
    (test.writes true ++ (update.writes false ++ body.writes false))
  | repeated body test =>
    steppedWord "do" body.pieces ++ (body.writes false ++ test.writes false)
  | leave value => steppedWord "return" (value.pieces ++ [punct ';']) ++ value.writes true
  | empty => []
  | sequence first others => first.writes false ++ others.writes false

end Tree

/-- The wanted names among writes, without copies of a name from its own parameter. -/
def selected (wanted : List String) (parameterPrefix : String) (writes : List Write) : List String :=
  (writes.filter fun write => wanted.contains write.name &&
    write.copied != some (parameterPrefix ++ write.name).toList).map Write.name

/-! The lexemes around a name. -/

def inCode (piece : Lexeme) : Spot :=
  ⟨piece, true⟩

/-- Whether what stands in front of a name leaves the judgement to what follows. -/
def isOpen (before : Option Lexeme) : Bool :=
  !before.any fun piece => isPoint piece || isOperatorIn stepOperators piece || isDeclaring piece

def isAccessor (piece : Lexeme) : Bool :=
  isOperatorIn ["[", "."] piece

/-- Whether a lexeme may be the first of an expression or a statement. -/
def isStart (piece : Lexeme) : Bool :=
  !isAccessor piece && !isOperatorIn assignmentOperators piece

/-- Whether a lexeme neither accesses nor writes the name in front of it. -/
def isCalm (piece : Lexeme) : Bool :=
  isStart piece && !isOperatorIn stepOperators piece

/-- Whether lexemes behind a name and its accessors write to it. -/
def writesBehind (parameterName : String) : List Lexeme → Bool
  | [] => false
  | first :: rest => isOperatorIn stepOperators first || (isOperatorIn assignmentOperators first &&
      !(first == punct '=' && rest.head?.any (·.text == parameterName.toList) &&
        rest[1]?.any (· == punct ';')))

section Judging

variable {tokens : List Token} {index : Nat} {wanted : List String} {parameterPrefix name : String}
  {before : Option Lexeme} {previous : Option Token} {rest tail : List Lexeme} {line : Bool}

theorem lexeme_codeAt (shape : spotsAt tokens index line = rest.map inCode) :
    (codeAt tokens index line).map (fun entry => lexeme entry.token) = rest := by
  have mapped := codeFrom_lexemes line index (tokens.drop index)
  rw [codePieces_eq, show spots line _ = _ from shape] at mapped
  rw [codeAt, mapped, filter_eq_self.mpr (by simp [inCode]), map_map]
  exact map_id _

theorem writes_lexeme (parameterName : String) (code : List Placed) :
    writes parameterName code =
      writesBehind parameterName (code.map fun entry => lexeme entry.token) := by
  have spelled (token : Token) (text : String) :
      (token.text == text) = ((lexeme token).text == text.toList) := by
    rw [Bool.eq_iff_iff, beq_iff_eq, beq_iff_eq, lexeme, String.toList_inj]
  have equals (token : Token) : token.isPunct "=" = (lexeme token == punct '=') :=
    isPunct_lexeme token "="
  have ends (token : Token) : token.isPunct ";" = (lexeme token == punct ';') :=
    isPunct_lexeme token ";"
  rcases code with _ | ⟨first, _ | ⟨second, _ | ⟨third, more⟩⟩⟩ <;>
    simp [writes, writesBehind, copiesParameter, isPunctIn_lexeme, equals, ends, spelled]

/-- A name is judged by the lexemes behind its accessors. -/
theorem isWritten_behind (isOpen : isOpen before) (same : previous.map lexeme = before)
    (shape : spotsAt tokens index false = rest.map inCode)
    (skips : Skips (rest.map inCode) (tail.map inCode))
    (stops : tail.head?.all (!isAccessor ·)) :
    isWritten tokens parameterPrefix previous name (codeAt tokens index false) =
      .ok (writesBehind (parameterPrefix ++ name) tail) := by
  subst same
  obtain ⟨notPoint, notStep, notDeclaring⟩ : (previous.map lexeme).any isPoint = false ∧
      (previous.map lexeme).any (isOperatorIn stepOperators) = false ∧
      (previous.map lexeme).any isDeclaring = false := by
    cases previous <;> simp_all [Usage.isOpen]
  obtain ⟨later, line, last, found⟩ := skips.skipAccessors shape
  have stopped : skipAccessors tokens (codeAt tokens later line) = .ok (codeAt tokens later line) := by
    have pieces := lexeme_codeAt last
    cases code : codeAt tokens later line with
    | nil => rw [skipAccessors.eq_def]
    | cons entry more =>
      rw [code] at pieces
      rw [← pieces, map_cons, head?_cons, Option.all_some, isAccessor, ← isPunctIn_lexeme,
        Bool.not_eq_true'] at stops
      refine skipAccessors_other ?_ ?_
      · simp_all [isPunct, isPunctIn]
      · simp_all [isPunct, isPunctIn]
  rw [isWritten, selectsMember_lexeme, any_isPunctIn, declares_lexeme, notPoint, notStep,
    notDeclaring, found, stopped]
  show Except.ok (writes _ _) = _
  rw [writes_lexeme, lexeme_codeAt last]

theorem isWritten_closed {code : List Placed} (closed : isOpen before = false)
    (same : previous.map lexeme = before) :
    isWritten tokens parameterPrefix previous name code =
      .ok (before.any (isOperatorIn stepOperators)) := by
  rw [isWritten, selectsMember_lexeme, any_isPunctIn, declares_lexeme, same]
  cases before with
  | none => cases closed
  | some piece =>
    have apart : isPoint piece → isOperatorIn stepOperators piece = false := by
      simp only [isPoint, isOperatorIn, Bool.and_eq_true, beq_iff_eq]
      rintro ⟨-, text⟩
      rw [text]
      simp [stepOperators]
    simp only [isOpen, Option.any_some] at closed ⊢
    cases point : isPoint piece with
    | true => simp [apart point]
    | false => cases steps : isOperatorIn stepOperators piece <;> simp_all

end Judging

/-! Reading a program. -/

/-- What a report is about. -/
structure Inquiry where
  tokens : List Token
  wanted : List String
  parameterPrefix : String

namespace Inquiry

/-- The report of lexemes that stand somewhere as code behind a lexeme. -/
def Reads (inquiry : Inquiry) (before : Option Lexeme) (pieces : List Lexeme)
    (names : List String) : Prop :=
  ∀ index previous, previous.map lexeme = before →
    spotsAt inquiry.tokens index false = pieces.map inCode →
    writtenFrom inquiry.tokens inquiry.wanted inquiry.parameterPrefix previous
      (codeAt inquiry.tokens index false) = .ok names

def selected (inquiry : Inquiry) (writes : List Write) : List String :=
  Usage.selected inquiry.wanted inquiry.parameterPrefix writes

variable {inquiry : Inquiry} {before : Option Lexeme} {piece : Lexeme}
  {pieces rest tail : List Lexeme} {names : List String} {name : String}

theorem selected_append (first second : List Write) :
    inquiry.selected (first ++ second) = inquiry.selected first ++ inquiry.selected second := by
  rw [selected, Usage.selected, filter_append, map_append]
  rfl

theorem selected_cons (first : Write) (others : List Write) :
    inquiry.selected (first :: others) = inquiry.selected [first] ++ inquiry.selected others :=
  selected_append [first] others

theorem selected_single (copied : Option (List Char)) : inquiry.selected [⟨name, copied⟩] =
    if inquiry.wanted.contains name && (copied != some (inquiry.parameterPrefix ++ name).toList) then
      [name] else [] := by
  rw [selected, Usage.selected, filter_cons, filter_nil]
  split <;> rfl

theorem reads_nil : inquiry.Reads before [] [] := by
  intro index previous _ shape
  rw [codeAt_nil shape, writtenFrom]

theorem exists_code {tokens : List Token} {index : Nat}
    (shape : spotsAt tokens index false = (piece :: rest).map inCode) :
    ∃ position token, lexeme token = piece ∧
      spotsAt tokens (position + 1) false = rest.map inCode ∧
      codeAt tokens index false = ⟨position, token⟩ :: codeAt tokens (position + 1) false := by
  obtain ⟨position, token, -, isPiece, behind, code⟩ := exists_next shape
  exact ⟨position, token, isPiece, behind, code⟩

theorem reads_other (other : (piece.kind == .ident) = false)
    (later : inquiry.Reads (some piece) rest names) : inquiry.Reads before (piece :: rest) names := by
  intro index previous _ shape
  obtain ⟨position, token, rfl, behind, code⟩ := exists_code shape
  have noWord : token.isWordIn inquiry.wanted = false := by
    rw [isWordIn, show (token.kind == .ident) = false from other, Bool.false_and]
  rw [code, writtenFrom, noWord, later (position + 1) (some token) rfl behind]
  rfl

/-- A name counts if it is wanted and judged as written. -/
theorem reads_word {judged : Bool} (judges : ∀ index previous, previous.map lexeme = before →
      spotsAt inquiry.tokens index false = rest.map inCode →
      isWritten inquiry.tokens inquiry.parameterPrefix previous name
        (codeAt inquiry.tokens index false) = .ok judged)
    (later : inquiry.Reads (some (word name)) rest names) :
    inquiry.Reads before (word name :: rest)
      ((if inquiry.wanted.contains name && judged then [name] else []) ++ names) := by
  intro index previous same shape
  obtain ⟨position, token, isWord, behind, code⟩ := exists_code shape
  obtain ⟨kind, text⟩ := lexeme_eq isWord
  rw [String.ofList_toList] at text
  have isWanted : token.isWordIn inquiry.wanted = inquiry.wanted.contains name := by
    rw [isWordIn, kind, text]
    rfl
  rw [code, writtenFrom, isWanted, text, later (position + 1) (some token) (by rw [← isWord]; rfl) behind]
  cases inquiry.wanted.contains name with
  | false => rfl
  | true =>
    rw [if_pos rfl, judges (position + 1) previous same behind]
    cases judged <;> rfl

/-- A name whose accessors lead to other lexemes writes what these say. -/
theorem reads_behind {copied : Option (List Char)} (isOpen : isOpen before)
    (skips : Skips (rest.map inCode) (tail.map inCode))
    (stops : tail.head?.all (!isAccessor ·))
    (written : writesBehind (inquiry.parameterPrefix ++ name) tail =
      (copied != some (inquiry.parameterPrefix ++ name).toList))
    (later : inquiry.Reads (some (word name)) rest names) :
    inquiry.Reads before (word name :: rest) (inquiry.selected [⟨name, copied⟩] ++ names) := by
  have reads := reads_word (fun _ _ same shape => isWritten_behind isOpen same shape skips stops) later
  rw [written] at reads
  rwa [selected_single]

/-- What follows a name that is not written: accessors, and then nothing that writes. -/
def Harmless (rest : List Lexeme) : Prop :=
  ∃ tail : List Lexeme, Skips (rest.map inCode) (tail.map inCode) ∧ tail.head?.all isCalm

theorem reads_unwritten (isOpen : isOpen before) (harmless : Harmless rest)
    (later : inquiry.Reads (some (word name)) rest names) :
    inquiry.Reads before (word name :: rest) names := by
  obtain ⟨tail, skips, calm⟩ := harmless
  have quiet : tail.head?.all (!isAccessor ·) ∧
      writesBehind (inquiry.parameterPrefix ++ name) tail = false := by
    cases tail with
    | nil => exact ⟨rfl, rfl⟩
    | cons first more => simp_all [isCalm, isStart, writesBehind]
  have unwritten : writesBehind (inquiry.parameterPrefix ++ name) tail =
      (some (inquiry.parameterPrefix ++ name).toList !=
        some (inquiry.parameterPrefix ++ name).toList) := by
    rw [quiet.2, bne_self_eq_false]
  have reads := reads_behind isOpen skips quiet.1 unwritten later
  rwa [selected_single, bne_self_eq_false, Bool.and_false] at reads

/-- Behind a point or a type a name is not written, and behind a step operator it is. -/
theorem reads_closed (closed : isOpen before = false)
    (later : inquiry.Reads (some (word name)) rest names) :
    inquiry.Reads before (word name :: rest) (inquiry.selected
      (if before.any (isOperatorIn stepOperators) then [⟨name, none⟩] else []) ++ names) := by
  have reads := reads_word (fun _ _ same _ => isWritten_closed closed same) later
  cases steps : before.any (isOperatorIn stepOperators) with
  | true =>
    rw [if_pos rfl, selected_single]
    rwa [steps] at reads
  | false => rwa [steps, Bool.and_false] at reads

/-- A word of a statement is written if the statement goes on with a step operator. -/
theorem reads_keyword (isOpen : isOpen before) (starts : pieces.head?.any isStart)
    (later : inquiry.Reads (some (word name)) (pieces ++ rest) names) :
    inquiry.Reads before (word name :: (pieces ++ rest))
      (inquiry.selected (steppedWord name pieces) ++ names) := by
  cases pieces with
  | nil => cases starts
  | cons first more =>
    cases steps : isOperatorIn stepOperators first with
    | true =>
      have word : steppedWord name (first :: more) = [⟨name, none⟩] := by simp [steppedWord, steps]
      rw [word]
      refine reads_behind isOpen (.stop _) ?_ ?_ later
      · simp_all [isStart]
      · simp [writesBehind, steps]
    | false =>
      have word : steppedWord name (first :: more) = [] := by simp [steppedWord, steps]
      rw [word]
      refine reads_unwritten isOpen ⟨_, .stop _, ?_⟩ later
      simp_all [isCalm]

end Inquiry

/-! The shape of phrases. -/

theorem any_head?_append {test : Lexeme → Bool} {pieces : List Lexeme}
    (first : pieces.head?.any test) (others : List Lexeme) :
    (pieces ++ others).head?.any test := by
  cases pieces with
  | nil => cases first
  | cons piece rest => exact first

namespace Tree

def isInner : Phrase → Bool
  | .expression | .optional | .accessors => true
  | .statement | .statements => false

theorem operator_plain {text : String}
    (listed : text ∈ plainOperators ++ assignmentOperators ++ stepOperators) :
    opensGroup (operator text) = false ∧ closesGroup (operator text) = false := by
  have all : ∀ text ∈ plainOperators ++ assignmentOperators ++ stepOperators,
      opensGroup (operator text) = false ∧ closesGroup (operator text) = false := by decide +kernel
  exact all text listed

/-- The brackets of an expression nest. -/
theorem nested {phrase : Phrase} (tree : Tree phrase) (inner : isInner phrase) :
    Nested false tree.pieces false := by
  induction tree with
  | named name => exact .plain rfl rfl (.nil _)
  | literal piece value =>
    obtain ⟨kind, text⟩ := piece
    rcases value with same | same <;> cases same <;> exact .plain rfl rfl (.nil _)
  | paren _ ih => exact .group (by decide) (ih rfl) (.nil _)
  | call _ _ first second => exact (first rfl).append (.group (by decide) (second rfl) (.nil _))
  | index _ _ first second => exact (first rfl).append (.group (by decide) (second rfl) (.nil _))
  | select _ name ih => exact (ih rfl).append (.plain rfl rfl (.plain rfl rfl (.nil _)))
  | unary text listed _ ih =>
    obtain ⟨opens, closes⟩ := @operator_plain text (by simp [listed])
    exact .plain opens closes (ih rfl)
  | binary _ text listed _ first second =>
    obtain ⟨opens, closes⟩ := @operator_plain text (by simp [listed])
    exact (first rfl).append (.plain opens closes (second rfl))
  | conditional _ _ _ first second third =>
    exact (first rfl).append (.plain rfl rfl ((second rfl).append (.plain rfl rfl (third rfl))))
  | assign name _ text listed _ first second =>
    obtain ⟨opens, closes⟩ := @operator_plain text (by simp [listed])
    exact .plain rfl rfl ((first rfl).append (.plain opens closes (second rfl)))
  | stepAfter name _ text listed ih =>
    obtain ⟨opens, closes⟩ := @operator_plain text (by simp [listed])
    exact .plain rfl rfl ((ih rfl).append (.plain opens closes (.nil _)))
  | stepBefore text listed name _ ih =>
    obtain ⟨opens, closes⟩ := @operator_plain text (by simp [listed])
    exact .plain opens closes (.plain rfl rfl (ih rfl))
  | absent => exact .nil _
  | present _ ih => exact ih rfl
  | bare => exact .nil _
  | subscript _ _ first second => exact .group (by decide) (first rfl) (second rfl)
  | member name _ ih => exact .plain rfl rfl (.plain rfl rfl (ih rfl))
  | _ => cases inner

/-- The accessors of a target are passed over. -/
theorem skips {rest tail : List Lexeme} (later : Skips (rest.map inCode) (tail.map inCode)) :
    (accessors : Tree .accessors) → Skips ((accessors.pieces ++ rest).map inCode) (tail.map inCode)
  | bare => later
  | subscript inner others => by
    have closed : squareDepth 1 ((inner.pieces.map inCode).map Spot.piece) = some 1 := by
      rw [map_map, show Spot.piece ∘ inCode = id from rfl, map_id, squareDepth_eq]
      exact (inner.nested rfl).depthAfter (by decide) 1 (Nat.le_refl 1)
    have skipped := Skips.subscript closed (skips later others)
    simpa [pieces, inCode] using skipped
  | member name others => by
    exact @Skips.member [] _ _ name.toList (forall_mem_nil _) (skips later others)

/-- An expression and a statement have a first lexeme, which neither accesses nor assigns. -/
theorem starts {phrase : Phrase} (tree : Tree phrase)
    (whole : phrase = .expression ∨ phrase = .statement) :
    tree.pieces.head?.any isStart := by
  induction tree with
  | literal piece value =>
    obtain ⟨kind, text⟩ := piece
    rcases value with same | same <;> cases same <;> rfl
  | call _ _ first => exact any_head?_append (first whole) _
  | index _ _ first => exact any_head?_append (first whole) _
  | select _ _ first => exact any_head?_append (first whole) _
  | binary _ _ _ _ first => exact any_head?_append (first whole) _
  | conditional _ _ _ first => exact any_head?_append (first whole) _
  | unary text listed =>
    have all : ∀ text ∈ plainOperators, isStart (operator text) := by decide +kernel
    exact all text listed
  | stepBefore text listed =>
    have all : ∀ text ∈ stepOperators, isStart (operator text) := by decide +kernel
    exact all text listed
  | evaluate _ ih => exact any_head?_append (ih (.inl rfl)) _
  | absent | present | bare | subscript | member | empty | sequence =>
    rcases whole with same | same <;> cases same
  | _ => rfl

end Tree

/-! Reading phrases. -/

namespace Inquiry

variable {inquiry : Inquiry} {before : Option Lexeme} {rest : List Lexeme} {names : List String}
  {phrase : Phrase} {tree : Tree phrase}

/-- What may stand around a phrase. -/
def Fits (ends : Bool) (before : Option Lexeme) (rest : List Lexeme) : Phrase → Prop
  | .expression | .optional =>
    isOpen before ∧ Harmless rest ∧ (rest.head? == some (punct ';')) = ends
  | .accessors => True
  | .statement | .statements => isOpen before

/-- What a phrase may leave in front of the next lexeme. -/
def Leaves (last : Option Lexeme) : Phrase → Prop
  | .expression | .optional | .accessors => True
  | .statement | .statements => isOpen last

/-- A phrase is read as its writes, wherever it may stand. -/
def Passes (inquiry : Inquiry) (tree : Tree phrase) : Prop :=
  ∀ ends before rest names, Fits ends before rest phrase →
    (∀ last, Leaves last phrase → inquiry.Reads last rest names) →
    inquiry.Reads before (tree.pieces ++ rest) (inquiry.selected (tree.writes ends) ++ names)

def isCloser (ends : Bool) (piece : Lexeme) : Bool :=
  piece.kind == .punct && isCalm piece && (piece == punct ';') == ends

theorem passes_closer {ends : Bool} {closer : Lexeme} (passes : inquiry.Passes tree)
    (value : phrase = .expression ∨ phrase = .optional) (isOpen : isOpen before)
    (closes : isCloser ends closer) (later : inquiry.Reads (some closer) rest names) :
    inquiry.Reads before (tree.pieces ++ closer :: rest)
      (inquiry.selected (tree.writes ends) ++ names) := by
  simp only [isCloser, Bool.and_eq_true, beq_iff_eq] at closes
  obtain ⟨⟨kind, calm⟩, ending⟩ := closes
  have reads last : inquiry.Reads last (closer :: rest) names := reads_other (by rw [kind]; rfl) later
  have harmless : Harmless (closer :: rest) := ⟨_, .stop _, calm⟩
  rcases value with rfl | rfl
  · exact passes ends before _ names ⟨isOpen, harmless, ending⟩ fun last _ => reads last
  · exact passes ends before _ names ⟨isOpen, harmless, ending⟩ fun last _ => reads last

theorem Harmless.accessors (harmless : Harmless rest) (accessors : Tree .accessors) :
    Harmless (accessors.pieces ++ rest) := by
  obtain ⟨tail, skips, calm⟩ := harmless
  exact ⟨tail, accessors.skips skips, calm⟩

theorem isOpen_declaring {typeName : String} (isType : typeName ∉ statementWords) :
    isOpen (some (word typeName)) = false := by
  have declaring : isDeclaring (word typeName) := by
    rw [isDeclaring, word, contains_toList, contains_eq_mem, decide_eq_false isType]
    rfl
  rw [isOpen, Option.any_some, declaring, Bool.or_true]
  rfl

theorem plainOperators_closer : ∀ text ∈ plainOperators,
    isCloser false (operator text) ∧ isOpen (some (operator text)) := by
  decide +kernel

theorem assignmentOperators_open : ∀ text ∈ assignmentOperators,
    (isOperatorIn assignmentOperators (operator text) ∧
      isOperatorIn stepOperators (operator text) = false) ∧
    isAccessor (operator text) = false ∧ isOpen (some (operator text)) := by
  decide +kernel

theorem stepOperators_closed : ∀ text ∈ stepOperators,
    isOperatorIn stepOperators (operator text) ∧ isAccessor (operator text) = false ∧
      isOpen (some (operator text)) = false := by
  decide +kernel

/-- An assignment writes unless its value is the parameter alone, in front of a semicolon. -/
theorem writesBehind_assign {parameterName text : String} {ends : Bool} {value : List Lexeme}
    (listed : text ∈ assignmentOperators) (starts : value.head?.any isStart)
    (ending : (rest.head? == some (punct ';')) = ends) :
    writesBehind parameterName (operator text :: (value ++ rest)) =
      (copiedValue ends text value != some parameterName.toList) := by
  obtain ⟨⟨assigns, noStep⟩, -⟩ := assignmentOperators_open text listed
  have equals : (operator text == punct '=') = (text == "=") := by
    rw [Bool.eq_iff_iff, beq_iff_eq, beq_iff_eq, ← String.toList_inj]
    simp [operator, punct]
  cases value with
  | nil => cases starts
  | cons first more =>
    have follows : (more ++ rest)[0]?.any (· == punct ';') =
        ((more ++ if ends then [punct ';'] else []).head? == some (punct ';')) := by
      subst ending
      cases more with
      | nil => cases rest with
        | nil => rfl
        | cons next others => cases ends : next == punct ';' <;> simp_all
      | cons => rfl
    simp only [cons_append, writesBehind, copiedValue, noStep, assigns, equals, follows,
      head?_cons, Option.any_some, getElem?_cons_succ]
    generalize ((more ++ if ends then _ else _).head? == some (punct ';')) = isLast
    cases text == "=" <;> cases isLast <;> simp [bne]

/-- Every phrase is read as its writes, by induction on the phrase. -/
theorem passes (tree : Tree phrase) : inquiry.Passes tree := by
  induction tree <;> intro ends before rest names fits later <;>
    simp only [Tree.pieces, Tree.writes, append_assoc, cons_append, nil_append,
      selected_append]
  case named => exact reads_unwritten fits.1 fits.2.1 (later _ trivial)
  case literal value =>
    refine reads_other ?_ (later _ trivial)
    rcases value with same | same <;> rw [same] <;> rfl
  case paren ih =>
    exact reads_other rfl (passes_closer ih (.inl rfl) rfl rfl (later _ trivial))
  case call first second =>
    exact passes_closer first (.inl rfl) fits.1 rfl
      (passes_closer second (.inr rfl) rfl rfl (later _ trivial))
  case index inner first second =>
    have harmless : Harmless (punct '[' :: (inner.pieces ++ punct ']' :: rest)) := by
      simpa [Tree.pieces] using fits.2.1.accessors (.subscript inner .bare)
    refine first false before _ _ ⟨fits.1, harmless, rfl⟩ ?_
    exact fun _ _ => reads_other rfl (passes_closer second (.inl rfl) rfl rfl (later _ trivial))
  case select name ih =>
    refine ih false before _ _ ⟨fits.1, fits.2.1.accessors (.member name .bare), rfl⟩ ?_
    exact fun _ _ => reads_other rfl (reads_closed rfl (later _ trivial))
  case unary text listed _ ih =>
    obtain ⟨-, isOpen⟩ := plainOperators_closer text listed
    exact reads_other rfl (ih ends _ _ _ ⟨isOpen, fits.2⟩ later)
  case binary text listed _ first second =>
    obtain ⟨closes, isOpen⟩ := plainOperators_closer text listed
    exact passes_closer first (.inl rfl) fits.1 closes (second ends _ _ _ ⟨isOpen, fits.2⟩ later)
  case conditional first second third =>
    exact passes_closer first (.inl rfl) fits.1 rfl (passes_closer second (.inl rfl) rfl rfl
      (third ends _ _ _ ⟨rfl, fits.2⟩ later))
  case assign name target text listed value first second =>
    obtain ⟨-, noAccessor, isOpen⟩ := assignmentOperators_open text listed
    rw [selected_cons, selected_append, append_assoc, append_assoc]
    refine reads_behind fits.1 (target.skips (.stop _)) (by simp [noAccessor])
      (writesBehind_assign listed (value.starts (.inl rfl)) fits.2.2) ?_
    refine first false _ _ _ trivial fun _ _ => reads_other rfl ?_
    exact second ends _ _ _ ⟨isOpen, fits.2⟩ later
  case stepAfter name target text listed ih =>
    obtain ⟨steps, noAccessor, -⟩ := stepOperators_closed text listed
    rw [selected_cons, append_assoc]
    refine reads_behind fits.1 (target.skips (.stop _)) (by simp [noAccessor])
      (by simp [writesBehind, steps]) ?_
    exact ih false _ _ _ trivial fun _ _ => reads_other rfl (later _ trivial)
  case stepBefore text listed name _ ih =>
    obtain ⟨steps, -, closed⟩ := stepOperators_closed text listed
    have reads := reads_closed closed (ih false (some (word name)) _ _ trivial later)
    rw [Option.any_some, steps] at reads
    rw [selected_cons, append_assoc]
    exact reads_other rfl reads
  case absent => exact later _ trivial
  case present ih => exact ih ends _ _ _ fits later
  case bare => exact later _ trivial
  case subscript first second =>
    exact reads_other rfl (passes_closer first (.inl rfl) rfl rfl
      (second false _ _ _ trivial later))
  case member ih => exact reads_other rfl (reads_closed rfl (ih false _ _ _ trivial later))
  case idle => exact reads_other rfl (later _ rfl)
  case evaluate ih => exact passes_closer ih (.inl rfl) fits rfl (later _ rfl)
  case declare isType _ _ ih =>
    refine reads_unwritten fits ⟨_, .stop _, rfl⟩ (reads_closed (isOpen_declaring isType) ?_)
    exact ih false _ _ _ trivial fun _ _ => reads_other rfl (later _ rfl)
  case define isType _ _ _ first second =>
    refine reads_unwritten fits ⟨_, .stop _, rfl⟩ (reads_closed (isOpen_declaring isType) ?_)
    refine first false _ _ _ trivial fun _ _ => reads_other rfl ?_
    exact passes_closer second (.inl rfl) rfl rfl (later _ rfl)
  case block ih => exact reads_other rfl (ih false _ _ _ rfl fun _ _ => reads_other rfl (later _ rfl))
  case guarded first second =>
    refine reads_unwritten fits ⟨_, .stop _, rfl⟩ (reads_other rfl ?_)
    exact passes_closer first (.inl rfl) rfl rfl (second false _ _ _ rfl later)
  case branch no first second third =>
    refine reads_unwritten fits ⟨_, .stop _, rfl⟩ (reads_other rfl ?_)
    refine passes_closer first (.inl rfl) rfl rfl (second false _ _ _ rfl fun _ isOpen => ?_)
    exact reads_keyword isOpen (no.starts (.inr rfl)) (third false _ _ _ rfl later)
  case loop first second third fourth =>
    refine reads_unwritten fits ⟨_, .stop _, rfl⟩ (reads_other rfl ?_)
    refine first false _ _ _ rfl fun _ isOpen => passes_closer second (.inr rfl) isOpen rfl ?_
    exact passes_closer third (.inr rfl) rfl rfl (fourth false _ _ _ rfl later)
  case repeated body _ first second =>
    refine reads_keyword fits (body.starts (.inr rfl)) (first false _ _ _ rfl fun _ isOpen => ?_)
    refine reads_unwritten isOpen ⟨_, .stop _, rfl⟩ (reads_other rfl ?_)
    exact passes_closer second (.inl rfl) rfl rfl (reads_other rfl (later _ rfl))
  case leave value ih =>
    have starts : (value.pieces ++ [punct ';']).head?.any isStart := by
      cases value with
      | absent => rfl
      | present given => exact any_head?_append (given.starts (.inl rfl)) _
    rw [append_cons value.pieces]
    refine reads_keyword fits starts ?_
    rw [← append_cons]
    exact passes_closer ih (.inr rfl) rfl rfl (later _ rfl)
  case empty => exact later _ fits
  case sequence first second =>
    exact first false _ _ _ fits fun _ isOpen => second false _ _ _ isOpen later

end Inquiry

/-- The report of written names gives the writes of the program, in the order of the text. A name is
left out if it is not wanted, or if its own parameter is copied into it or into a part of it. -/
theorem written_program {source : String} (program : Tree .statements)
    (spells : spotsOf source = program.pieces.map inCode) (wanted : List String)
    (parameterPrefix : String) :
    written wanted parameterPrefix source =
      .ok (selected wanted parameterPrefix (program.writes false)) := by
  have reads := @Inquiry.passes ⟨lex source, wanted, parameterPrefix⟩ _ program false none [] [] rfl
    fun _ _ => Inquiry.reads_nil
  rw [append_nil, append_nil] at reads
  exact reads 0 none rfl spells

/-- The index is written besides the array. The part of `c` is not, as it gets the parameter of
`c`. -/
theorem written_program_subscript :
    written ["a", "c", "i"] "PARAM_" "c.x = PARAM_c; a[i++] = b;" = .ok ["a", "i"] := by
  let copy : Tree .statement :=
    .evaluate (.assign "c" (.member "x" .bare) "=" (by decide) (.named "PARAM_c"))
  let counted : Tree .accessors := .subscript (.stepAfter "i" .bare "++" (by decide)) .bare
  let program : Tree .statements :=
    .sequence copy (.sequence (.evaluate (.assign "a" counted "=" (by decide) (.named "b"))) .empty)
  have spells : spotsOf "c.x = PARAM_c; a[i++] = b;" = program.pieces.map inCode := by decide +kernel
  have names : selected ["a", "c", "i"] "PARAM_" (program.writes false) = ["a", "i"] := by
    decide +kernel
  rw [written_program program spells, names]

end WebShader.Usage
