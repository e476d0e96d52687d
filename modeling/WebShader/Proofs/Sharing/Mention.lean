import WebShader.Proofs.Token.Relexing
import WebShader.Token.Query

/-!
Contract: whether a source mentions a name.

Owns: mentions, that is names as lexemes of their own which select no member,
and how they follow from the parts of a source.
-/

namespace WebShader.Sharing

open List Token

def mentionsFrom (name : String) (previous : Option Token) : List Token → Bool
  | [] => false
  | token :: rest =>
    (token.isWord name && !selectsMember previous) ||
      mentionsFrom name (significantAfter previous token) rest

/-- Whether a name stands in a source as an identifier other than a member. -/
def mentions (name source : String) : Bool :=
  mentionsFrom name none (lex source)

/-! The same of lexemes. -/

def isPoint (piece : Lexeme) : Bool :=
  piece.kind == .punct && piece.text == ['.']

/-- Whether a point is the last significant lexeme. -/
def selectsAfter (selects : Bool) : List Lexeme → Bool
  | [] => selects
  | piece :: rest => selectsAfter (if piece.kind.isTrivia then selects else isPoint piece) rest

def occurs (name : List Char) (selects : Bool) : List Lexeme → Bool
  | [] => false
  | piece :: rest =>
    (piece.kind == .ident && piece.text == name && !selects) ||
      occurs name (selectsAfter selects [piece]) rest

theorem isPoint_lexeme (token : Token) : isPoint (lexeme token) = token.isPunct "." := by
  have same : (token.text.toList == ['.']) = (token.text == ".") := by
    rw [Bool.eq_iff_iff, beq_iff_eq, beq_iff_eq, ← String.toList_inj]
    rfl
  rw [isPoint, lexeme, same, Token.isPunct]

theorem isWord_lexeme (token : Token) (name : String) :
    token.isWord name = ((lexeme token).kind == .ident && (lexeme token).text == name.toList) := by
  have same : (token.text.toList == name.toList) = (token.text == name) := by
    rw [Bool.eq_iff_iff, beq_iff_eq, beq_iff_eq, ← String.toList_inj]
  rw [lexeme, same, Token.isWord]

theorem selectsMember_significantAfter (prev : Option Token) (token : Token) :
    selectsMember (significantAfter prev token) =
      selectsAfter (selectsMember prev) [lexeme token] := by
  show _ = if token.isTrivia then _ else _
  rw [significantAfter]
  split
  · rfl
  · exact (isPoint_lexeme token).symm

theorem mentionsFrom_eq (name : String) (prev : Option Token) (tokens : List Token) :
    mentionsFrom name prev tokens =
      occurs name.toList (selectsMember prev) (tokens.map lexeme) := by
  induction tokens generalizing prev with
  | nil => rfl
  | cons token rest ih =>
    rw [mentionsFrom, ih, selectsMember_significantAfter, isWord_lexeme]
    rfl

theorem mentions_eq (name source : String) :
    mentions name source = occurs name.toList false (lexemes source.toList) :=
  mentionsFrom_eq name none (lex source)

theorem occurs_append (name : List Char) (selects : Bool) (pieces others : List Lexeme) :
    occurs name selects (pieces ++ others) =
      (occurs name selects pieces || occurs name (selectsAfter selects pieces) others) := by
  induction pieces generalizing selects with
  | nil => rfl
  | cons piece rest ih =>
    rw [cons_append, occurs, ih, occurs, Bool.or_assoc]
    rfl

/-- Behind a point there are no more mentions than elsewhere. -/
theorem occurs_false_of_plain {name : List Char} {pieces : List Lexeme}
    (absent : occurs name false pieces = false) (selects : Bool) :
    occurs name selects pieces = false := by
  cases selects with
  | false => exact absent
  | true =>
    induction pieces with
    | nil => rfl
    | cons piece rest ih =>
      simp only [occurs] at absent ⊢
      by_cases trivia : piece.kind.isTrivia = true
      · simp_all [selectsAfter]
      grind [selectsAfter]

theorem occurs_empty {pieces : List Lexeme} (present : ∀ piece ∈ pieces, piece.text ≠ [])
    (selects : Bool) : occurs [] selects pieces = false := by
  induction pieces generalizing selects with
  | nil => rfl
  | cons piece rest ih => grind [occurs]

/-! Comments. -/

/-- A lexeme without the text of a comment. -/
def bleached (piece : Lexeme) : Lexeme :=
  if piece.kind == .comment then ⟨.comment, []⟩ else piece

theorem bleached_kind (piece : Lexeme) : (bleached piece).kind = piece.kind := by grind [bleached]

theorem bleached_text {piece : Lexeme} (code : piece.kind ≠ .comment) : bleached piece = piece := by
  rw [bleached, if_neg (by simpa using code)]

theorem numbersApart_bleached (pieces : List Lexeme) :
    numbersApart (pieces.map bleached) = numbersApart pieces := by
  induction pieces with
  | nil => rfl
  | cons piece rest ih =>
    rw [map_cons, numbersApart, ih, numbersApart, bleached_kind]
    cases rest with
    | nil => rfl
    | cons second further => simp [bleached_kind]

theorem occurs_bleached (name : List Char) (selects : Bool) (pieces : List Lexeme) :
    occurs name selects (pieces.map bleached) = occurs name selects pieces := by
  induction pieces generalizing selects with
  | nil => rfl
  | cons piece rest ih =>
    rw [map_cons, occurs, ih, occurs]
    by_cases comment : piece.kind = .comment
    · have kind := bleached_kind piece
      simp only [kind, comment, selectsAfter]
      rfl
    · rw [bleached_text comment]

/-! Texts without a mention, put together from the right. -/

/-- A text splits into lexemes that keep numbers apart and do not mention a name. -/
structure Cleared (unwanted : List Char) (selects : Bool) (text : List Char)
    (pieces : List Lexeme) : Prop where
  splits : Splits text pieces
  apart : numbersApart pieces = true
  absent : occurs unwanted selects pieces = false

namespace Cleared

variable {unwanted rest : List Char} {pieces : List Lexeme}

theorem behind (cleared : Cleared unwanted false rest pieces) (selects : Bool) :
    Cleared unwanted selects rest pieces :=
  ⟨cleared.splits, cleared.apart, occurs_false_of_plain cleared.absent selects⟩

theorem cons {kind : TokenKind} {front : List Char} {selects : Bool}
    (leads : frontToken (front ++ rest) = (kind, front.length))
    (apart : kind = .number → startsName rest = false)
    (absent : (kind == .ident && front == unwanted && !selects) = false)
    (cleared : Cleared unwanted (selectsAfter selects [⟨kind, front⟩]) rest pieces) :
    Cleared unwanted selects (front ++ rest) (⟨kind, front⟩ :: pieces) where
  splits := .cons leads cleared.splits
  apart := cleared.splits.numbersApart_cons.mpr ⟨apart, cleared.apart⟩
  absent := by
    rw [occurs, absent, cleared.absent]
    rfl

theorem name {name : List Char} (named : isName name) (ne : name ≠ unwanted)
    (stops : rest.head?.any Text.isWord = false) (cleared : Cleared unwanted false rest pieces) :
    Cleared unwanted false (name ++ rest) (⟨.ident, name⟩ :: pieces) :=
  cons (frontToken_name named stops) nofun (by simp [ne]) cleared

theorem trivia {front : List Char} {kind : TokenKind} {selects : Bool}
    (leads : frontToken (front ++ rest) = (kind, front.length)) (trivia : kind.isTrivia)
    (cleared : Cleared unwanted selects rest pieces) :
    Cleared unwanted selects (front ++ rest) (⟨kind, front⟩ :: pieces) := by
  have kinds : kind ≠ .number ∧ kind ≠ .ident := by
    refine ⟨?_, ?_⟩ <;> (rintro rfl; cases trivia)
  simp_all [cons, selectsAfter]

/-- A punctuator of one character other than the point. -/
theorem punct {c : Char} (leads : frontToken (c :: rest) = (.punct, 1)) (notPoint : c ≠ '.')
    (cleared : Cleared unwanted false rest pieces) :
    Cleared unwanted false (c :: rest) (⟨.punct, [c]⟩ :: pieces) := by
  have plain : selectsAfter false [⟨.punct, [c]⟩] = false := by
    simp [selectsAfter, isPoint, notPoint]
  exact @cons _ _ _ .punct [c] false leads nofun rfl (by rwa [plain])

theorem bracket {c : Char} (bracket : standsAlone c)
    (cleared : Cleared unwanted false rest pieces) :
    Cleared unwanted false (c :: rest) (⟨.punct, [c]⟩ :: pieces) := by
  refine cleared.punct (frontToken_alone_punct bracket rest) ?_
  rintro rfl
  exact absurd bracket (by decide)

theorem equals (ne : rest.head? ≠ some '=') (cleared : Cleared unwanted false rest pieces) :
    Cleared unwanted false ('=' :: rest) (⟨.punct, ['=']⟩ :: pieces) :=
  cleared.punct (frontToken_equals ne) (by decide)

theorem blank {selects : Bool} (ends : blankLength rest = 0)
    (cleared : Cleared unwanted selects rest pieces) :
    Cleared unwanted selects (' ' :: rest) (⟨.whitespace, [' ']⟩ :: pieces) := by
  have length : blankLength (' ' :: rest) = 1 := by
    rw [blankLength_cons (by decide), if_pos (by decide), ends]
  have leads : frontToken ([' '] ++ rest) = (.whitespace, 1) := by
    rw [singleton_append, frontToken_blank (by omega), length]
  exact cleared.trivia leads rfl

/-- A name with a blank behind it. -/
theorem word {word : List Char} (named : isName word) (ne : word ≠ unwanted)
    (ends : blankLength rest = 0) (cleared : Cleared unwanted false rest pieces) :
    Cleared unwanted false (word ++ ' ' :: rest)
      (⟨.ident, word⟩ :: ⟨.whitespace, [' ']⟩ :: pieces) :=
  (cleared.blank ends).name named ne rfl

theorem lineEnd {selects : Bool} (cleared : Cleared unwanted selects rest pieces) :
    Cleared unwanted selects ('\n' :: rest) (⟨.newline, ['\n']⟩ :: pieces) :=
  @trivia _ _ _ ['\n'] .newline selects (frontToken_newline rfl) rfl cleared

end Cleared

end WebShader.Sharing
