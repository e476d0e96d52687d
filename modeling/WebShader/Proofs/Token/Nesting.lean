import WebShader.Definition.Span
import WebShader.Proofs.Token.Depth
import WebShader.Proofs.Token.Relexing

/-!
Contract: lexemes whose brackets nest.

Owns: the code of a source and walks over whole lines, nested lexemes, the
closing bracket that is found behind them, and the code in front of and behind a
place.

Directive lines are no code, but their brackets count where a closing bracket is
looked for. So a bracket of code and one of a directive line are never a pair.
-/

namespace WebShader.Token

open List

variable {pieces : List Lexeme}

/-- Whether the walk stands on a directive line behind a lexeme. -/
def directiveAfter (onLine : Bool) (piece : Lexeme) : Bool :=
  match piece.kind with
  | .newline => false
  | .directive => true
  | _ => onLine

/-- The lexemes outside directive lines that are not trivia. -/
def codePieces (onLine : Bool) : List Lexeme → List Lexeme
  | [] => []
  | piece :: rest =>
    let others := codePieces (directiveAfter onLine piece) rest
    if directiveAfter onLine piece || piece.kind.isTrivia then others else piece :: others

theorem codeFrom_lexemes (onLine : Bool) (index : Nat) (tokens : List Token) :
    (codeFrom onLine index tokens).map (fun placed => lexeme placed.token) =
      codePieces onLine (tokens.map lexeme) := by
  induction tokens generalizing onLine index with
  | nil => rfl
  | cons token rest ih =>
    have line : directiveAfter onLine (lexeme token) = onDirective onLine token := rfl
    have trivia : (lexeme token).kind.isTrivia = token.isTrivia := rfl
    grind [codeFrom, codePieces]

theorem codePieces_append (onLine : Bool) (pieces others : List Lexeme) :
    codePieces onLine (pieces ++ others) =
      codePieces onLine pieces ++ codePieces (pieces.foldl directiveAfter onLine) others := by
  induction pieces generalizing onLine with
  | nil => rfl
  | cons piece rest ih => grind [codePieces]

theorem mem_codePieces {onLine : Bool} {piece : Lexeme}
    (mem : piece ∈ codePieces onLine pieces) : piece ∈ pieces := by
  induction pieces generalizing onLine with
  | nil => exact mem
  | cons first rest ih =>
    rw [codePieces] at mem
    grind

/-- A walk that starts anew behind each line end does so behind whole lines. -/
theorem foldl_settled {walk : Bool → Lexeme → Bool}
    (renews : ∀ before piece, piece.kind = .newline → walk before piece = false)
    (isSettled : settled pieces) : pieces.foldl walk false = false := by
  rcases pieces.eq_nil_or_concat with rfl | ⟨front, last, rfl⟩
  · rfl
  · rw [concat_eq_append] at isSettled ⊢
    have newline : last.kind = .newline := by
      simpa [settled] using isSettled
    rw [foldl_append, foldl_cons, foldl_nil, renews _ last newline]

theorem directiveAfter_newline (onLine : Bool) (piece : Lexeme) (newline : piece.kind = .newline) :
    directiveAfter onLine piece = false := by
  rw [directiveAfter, newline]

end WebShader.Token

namespace WebShader.Token

open List

variable {after onLine : Bool} {piece : Lexeme} {pair : Lexeme × Lexeme} {pieces : List Lexeme}
  {tokens : List Token}
  {token : Token} {index pos : Nat} {rest : List Placed} {right : List Lexeme}

def word (name : String) : Lexeme :=
  ⟨.ident, name.toList⟩

def blank : Lexeme :=
  ⟨.whitespace, [' ']⟩

def lineFeed : Lexeme :=
  ⟨.newline, ['\n']⟩

def opensGroup (piece : Lexeme) : Bool :=
  bracketPairs.any (·.1 == piece)

def closesGroup (piece : Lexeme) : Bool :=
  bracketPairs.any (·.2 == piece)

/-- Lexemes whose brackets nest, read from one state of directive lines to another. -/
inductive Nested : Bool → List Lexeme → Bool → Prop where
  | nil (onLine : Bool) : Nested onLine [] onLine
  | plain {onLine after : Bool} {piece : Lexeme} {rest : List Lexeme}
      (notOpener : opensGroup piece = false) (notCloser : closesGroup piece = false)
      (others : Nested (directiveAfter onLine piece) rest after) : Nested onLine (piece :: rest) after
  | group {onLine after : Bool} {opener closer : Lexeme} {inside rest : List Lexeme}
      (pair : (opener, closer) ∈ bracketPairs) (inner : Nested onLine inside onLine)
      (others : Nested onLine rest after) : Nested onLine (opener :: (inside ++ closer :: rest)) after

theorem directiveAfter_punct (onLine : Bool) (c : Char) :
    directiveAfter onLine (punct c) = onLine := rfl

theorem directiveAfter_pair {opener closer : Lexeme} (pair : (opener, closer) ∈ bracketPairs)
    (onLine : Bool) :
    directiveAfter onLine opener = onLine ∧ directiveAfter onLine closer = onLine := by
  rcases mem_bracketPairs.mp pair with same | same | same <;> cases same <;> exact ⟨rfl, rfl⟩

theorem Nested.state (nested : Nested onLine pieces after) :
    pieces.foldl directiveAfter onLine = after := by
  induction nested with
  | nil onLine => rfl
  | plain notOpener notCloser others ih => exact ih
  | group pair inner others innerHypothesis ih =>
    obtain ⟨opened, closed⟩ := directiveAfter_pair pair _
    rw [foldl_cons, opened, foldl_append, innerHypothesis, foldl_cons, closed, ih]

theorem Nested.append {between : Bool} {others : List Lexeme} (first : Nested onLine pieces between)
    (second : Nested between others after) : Nested onLine (pieces ++ others) after := by
  induction first with
  | nil onLine => exact second
  | plain notOpener notCloser _ ih =>
    exact .plain notOpener notCloser (ih second)
  | group pair inner _ _ ih =>
    rw [cons_append, append_assoc]
    exact .group pair inner (ih second)

/-- Lexemes without brackets are nested. -/
theorem nested_plain (plain : pieces.all (fun piece => !opensGroup piece && !closesGroup piece))
    (onLine : Bool) : Nested onLine pieces (pieces.foldl directiveAfter onLine) := by
  induction pieces generalizing onLine with
  | nil => exact .nil onLine
  | cons piece rest ih =>
    rw [all_cons, Bool.and_eq_true, Bool.and_eq_true, Bool.not_eq_true', Bool.not_eq_true'] at plain
    exact .plain plain.1.1 plain.1.2 (ih plain.2 _)

theorem opensGroup_of_mem (mem : pair ∈ bracketPairs) : opensGroup pair.1 :=
  any_eq_true.mpr ⟨pair, mem, beq_self_eq_true _⟩

theorem closesGroup_of_mem (mem : pair ∈ bracketPairs) : closesGroup pair.2 :=
  any_eq_true.mpr ⟨pair, mem, beq_self_eq_true _⟩

theorem exists_lexeme_append {left : List Lexeme} (shape : tokens.map lexeme = left ++ right) :
    ∃ first second, tokens = first ++ second ∧ first.map lexeme = left ∧ second.map lexeme = right := by
  obtain ⟨first, second, rfl, rfl, rfl⟩ := map_eq_append_iff.mp shape
  exact ⟨first, second, rfl, rfl, rfl⟩

theorem exists_lexeme_cons (shape : tokens.map lexeme = piece :: right) :
    ∃ first second, tokens = first :: second ∧ lexeme first = piece ∧ second.map lexeme = right := by
  obtain ⟨first, second, rfl, rfl, rfl⟩ := map_eq_cons_iff.mp shape
  exact ⟨first, second, rfl, rfl, rfl⟩

/-- Nested lexemes leave the depth of each kind of bracket as it is. -/
theorem Nested.depthAfter (isKind : pair ∈ bracketPairs) (nested : Nested onLine pieces after) :
    ∀ depth, 1 ≤ depth → Token.depthAfter pair depth pieces = some depth := by
  induction nested with
  | nil onLine =>
    intro depth _
    rfl
  | @plain onLine after piece rest notOpener notCloser _ ih =>
    have opens : piece ≠ pair.1 := by
      rintro rfl
      rw [opensGroup_of_mem isKind] at notOpener
      cases notOpener
    have closes : piece ≠ pair.2 := by
      rintro rfl
      rw [closesGroup_of_mem isKind] at notCloser
      cases notCloser
    simp_all [Token.depthAfter]
  | @group onLine after opening closing _ others isPair _ _ inside ih =>
    intro depth positive
    obtain ⟨alike, apart⟩ := pair_unique _ isPair _ isKind
    obtain ⟨-, crossed⟩ := pair_unique _ isKind _ isPair
    rw [Token.depthAfter]
    by_cases same : opening = pair.1
    · -- a group of the same kind goes one deeper and comes back
      rw [if_pos (by simpa using same), depthAfter_append, inside _ (by omega), Option.bind_some,
        Token.depthAfter, if_neg (by simpa using crossed.symm), if_pos (by simpa using alike.mp same),
        if_neg (by omega), Nat.add_sub_cancel, ih depth positive]
    · rw [if_neg (by simpa using same), if_neg (by simpa using apart),
        depthAfter_append, inside _ positive, Option.bind_some, Token.depthAfter,
        if_neg (by simpa using crossed.symm), if_neg (by simpa using mt alike.mpr same),
        ih depth positive]

/-! Code in parts. -/

theorem foldl_onDirective (onLine : Bool) (tokens : List Token) :
    tokens.foldl onDirective onLine = (tokens.map lexeme).foldl directiveAfter onLine := by
  rw [foldl_map]
  rfl

theorem codeFrom_append (onLine : Bool) (index : Nat) (tokens others : List Token) :
    codeFrom onLine index (tokens ++ others) = codeFrom onLine index tokens ++
        codeFrom (tokens.foldl onDirective onLine) (index + tokens.length) others := by
  induction tokens generalizing onLine index with
  | nil => rfl
  | cons token rest ih => grind [codeFrom]

/-- A lexeme that is code outside directive lines. -/
def isCode (piece : Lexeme) : Bool :=
  !piece.kind.isTrivia && piece.kind != .directive

theorem directiveAfter_code (code : isCode piece) (onLine : Bool) :
    directiveAfter onLine piece = onLine := by
  rw [directiveAfter]
  split
  next kind =>
    rw [isCode, kind] at code
    cases code
  next kind =>
    rw [isCode, kind] at code
    cases code
  · rfl

theorem codePieces_cons (code : isCode piece) (rest : List Lexeme) :
    codePieces false (piece :: rest) = piece :: codePieces false rest := by
  simp_all [isCode, codePieces, directiveAfter_code]

theorem codeFrom_cons (code : isCode (lexeme token)) (index : Nat) (rest : List Token) :
    codeFrom false index (token :: rest) = ⟨index, token⟩ :: codeFrom false (index + 1) rest := by
  have line : onDirective false token = false := directiveAfter_code code false
  have notTrivia : token.isTrivia = false := by
    simp only [isCode, Bool.and_eq_true, Bool.not_eq_true'] at code
    exact code.1
  rw [codeFrom, line, notTrivia]
  rfl

/-- Lexemes that hold no code: blanks, comments and whole directive lines. -/
def Silent (pieces : List Lexeme) : Prop :=
  codePieces false pieces = [] ∧ pieces.foldl directiveAfter false = false

instance (pieces : List Lexeme) : Decidable (Silent pieces) :=
  inferInstanceAs (Decidable (_ ∧ _))

theorem codeFrom_silent (silent : Silent (tokens.map lexeme)) (index : Nat) (rest : List Token) :
    codeFrom false index (tokens ++ rest) = codeFrom false (index + tokens.length) rest := by
  have none : codeFrom false index tokens = [] := by
    have mapped := codeFrom_lexemes false index tokens
    rw [silent.1] at mapped
    exact map_eq_nil_iff.mp mapped
  rw [codeFrom_append, none, foldl_onDirective, silent.2]
  rfl

theorem map_codeFrom_sublist :
    ((codeFrom onLine index tokens).map Placed.token).Sublist tokens := by
  induction tokens generalizing onLine index with
  | nil => exact .slnil
  | cons token rest ih => grind [codeFrom]

theorem position_of_mem_codeFrom {entry : Placed} (mem : entry ∈ codeFrom onLine index tokens) :
    index ≤ entry.position ∧ entry.position < index + tokens.length := by
  induction tokens generalizing onLine index with
  | nil => cases mem
  | cons token rest ih =>
    rw [codeFrom] at mem
    grind

end WebShader.Token

namespace WebShader.Definition

open List Token

theorem after?_append {passed : List Placed} (others : ∀ entry ∈ passed, entry.position ≠ pos) :
    after? pos (passed ++ rest) = after? pos rest := by
  induction passed with
  | nil => rfl
  | cons entry further ih => simp_all [after?]

/-- The code after a place of code. -/
theorem after?_codeFrom {passed rest : List Token}
    (code : isCode (lexeme token)) (line : passed.foldl onDirective false = false)
    (index : Nat) :
    after? (index + passed.length) (codeFrom false index (passed ++ token :: rest)) =
      some (codeFrom false (index + passed.length + 1) rest) := by
  rw [codeFrom_append, line, codeFrom_cons code, after?_append, after?, if_pos (by simp)]
  intro entry mem
  have := position_of_mem_codeFrom mem
  omega

theorem closeAt_eq {tokens : List Token} {code : List Placed} {closing : Nat}
    (placed : code[index]? = some ⟨pos, token⟩)
    (matched : matching? tokens pos = some closing) (found : after? closing code = some rest) :
    closeAt tokens code index = .closed closing ⟨rest, after?_length found⟩ := by
  rw [closeAt]
  split
  next none => grind
  grind

end WebShader.Definition
