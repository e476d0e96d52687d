import WebShader.Proofs.Sharing.Mention
import WebShader.Proofs.Token.Nesting
import WebShader.Sharing.Usage

/-!
Contract: what stands behind the subscripts and member selections of a name.

Owns: the significant lexemes of a source with the mark of code, square brackets
among them, and the search behind accessors as a relation between them.

The search runs over positions, and a bracket is closed wherever its partner
stands, also on a directive line. Here it depends on the lexemes alone.
-/

namespace WebShader.Usage

open List Token
open Sharing (isPoint_lexeme)

variable {onLine : Bool} {inside rest tokens : List Token} {pos : Nat} {closer opener : Token}

/-! Significant lexemes. -/

/-- A significant lexeme, and whether it is code, that is outside directive lines. -/
structure Spot where
  piece : Lexeme
  inCode : Bool
  deriving DecidableEq, Repr

def spots (onLine : Bool) : List Lexeme → List Spot
  | [] => []
  | piece :: rest =>
    if piece.kind.isTrivia then spots (directiveAfter onLine piece) rest
    else ⟨piece, !directiveAfter onLine piece⟩ :: spots (directiveAfter onLine piece) rest

theorem spots_append (onLine : Bool) (pieces others : List Lexeme) :
    spots onLine (pieces ++ others) =
      spots onLine pieces ++ spots (pieces.foldl directiveAfter onLine) others := by
  induction pieces generalizing onLine with
  | nil => rfl
  | cons piece rest ih =>
    rw [cons_append, spots, ih, spots]
    split
    · rfl
    · rfl

theorem codePieces_eq (onLine : Bool) (pieces : List Lexeme) :
    codePieces onLine pieces = ((spots onLine pieces).filter Spot.inCode).map Spot.piece := by
  induction pieces generalizing onLine with
  | nil => rfl
  | cons piece rest ih => grind [codePieces, spots]

/-- The tokens of spots that stand in front of others. -/
theorem exists_tokens_append {front back : List Spot}
    (shape : spots onLine (tokens.map lexeme) = front ++ back) :
    ∃ first second, tokens = first ++ second ∧ spots onLine (first.map lexeme) = front ∧
      spots (first.foldl onDirective onLine) (second.map lexeme) = back := by
  induction tokens generalizing onLine front with
  | nil =>
    obtain ⟨rfl, rfl⟩ := append_eq_nil_iff.mp shape.symm
    exact ⟨[], [], rfl, rfl, rfl⟩
  | cons token rest ih =>
    have line : directiveAfter onLine (lexeme token) = onDirective onLine token := rfl
    cases front with
    | nil => exact ⟨[], token :: rest, rfl, rfl, shape⟩
    | cons spot others =>
      rw [map_cons, spots, line] at shape
      cases trivia : (lexeme token).kind.isTrivia with
      | true =>
        rw [if_pos trivia] at shape
        obtain ⟨first, second, rfl, before, behind⟩ := ih shape
        refine ⟨token :: first, second, rfl, ?_, behind⟩
        rw [map_cons, spots, if_pos trivia, line, before]
      | false =>
        rw [if_neg (by simp [trivia]), cons_append, List.cons.injEq] at shape
        obtain ⟨rfl, later⟩ := shape
        obtain ⟨first, second, rfl, before, behind⟩ := ih later
        refine ⟨token :: first, second, rfl, ?_, behind⟩
        rw [map_cons, spots, if_neg (by simp [trivia]), line, before]

/-- The token of the first spot, with trivia in front of it. -/
theorem exists_token_cons {spot : Spot} {others : List Spot}
    (shape : spots onLine (tokens.map lexeme) = spot :: others) :
    ∃ front token back, tokens = front ++ token :: back ∧ spots onLine (front.map lexeme) = [] ∧
      lexeme token = spot.piece ∧ token.isTrivia = false ∧
      spot.inCode = !onDirective (front.foldl onDirective onLine) token ∧
      spots (onDirective (front.foldl onDirective onLine) token) (back.map lexeme) = others := by
  induction tokens generalizing onLine with
  | nil => cases shape
  | cons token rest ih =>
    have line : directiveAfter onLine (lexeme token) = onDirective onLine token := rfl
    rw [map_cons, spots, line] at shape
    cases trivia : (lexeme token).kind.isTrivia with
    | true =>
      rw [if_pos trivia] at shape
      obtain ⟨front, found, back, rfl, before, facts⟩ := ih shape
      refine ⟨token :: front, found, back, rfl, ?_, facts⟩
      rw [map_cons, spots, if_pos trivia, line, before]
    | false =>
      rw [if_neg (by simp [trivia]), List.cons.injEq] at shape
      obtain ⟨rfl, later⟩ := shape
      exact ⟨[], token, rest, rfl, rfl, rfl, trivia, rfl, later⟩

theorem codeFrom_of_spots (index : Nat)
    (outside : ∀ spot ∈ spots onLine (tokens.map lexeme), spot.inCode = false) :
    codeFrom onLine index tokens = [] := by
  have mapped := codeFrom_lexemes onLine index tokens
  have none : (spots onLine (tokens.map lexeme)).filter Spot.inCode = [] := by
    rw [filter_eq_nil_iff]
    intro spot member
    rw [outside spot member]
    decide
  rw [codePieces_eq, none] at mapped
  exact map_eq_nil_iff.mp mapped

/-! Square brackets. -/

/-- How many square brackets are open behind lexemes, as long as one is. -/
def squareDepth (depth : Nat) : List Lexeme → Option Nat
  | [] => some depth
  | piece :: rest =>
    if piece == punct '[' then squareDepth (depth + 1) rest
    else if piece == punct ']' then
      if depth ≤ 1 then none else squareDepth (depth - 1) rest
    else squareDepth depth rest

theorem squareDepth_spots (onLine : Bool) (depth : Nat) (pieces : List Lexeme) :
    squareDepth depth ((spots onLine pieces).map Spot.piece) = squareDepth depth pieces := by
  induction pieces generalizing onLine depth with
  | nil => rfl
  | cons piece rest ih =>
    rw [spots]
    cases trivia : piece.kind.isTrivia with
    | true =>
      have other : ∀ c, (piece == punct c) = false := by
        intro c
        rw [beq_eq_false_iff_ne]
        rintro rfl
        cases trivia
      rw [if_pos rfl, ih, squareDepth, other, other]
      rfl
    | false =>
      rw [if_neg (by decide), map_cons, squareDepth, squareDepth]
      simp only [ih]

theorem squareDepth_eq (depth : Nat) (pieces : List Lexeme) :
    squareDepth depth pieces = depthAfter (punct '[', punct ']') depth pieces := by
  induction pieces generalizing depth with
  | nil => rfl
  | cons piece rest ih => simp only [squareDepth, depthAfter, ih]

theorem isPunct_opening (token : Token) : token.isPunct "[" = (lexeme token == punct '[') :=
  isPunct_lexeme token "["

/-! Subscripts and member selections. -/

/-- What spots leave behind subscripts, member selections and directive lines. -/
inductive Skips : List Spot → List Spot → Prop where
  | stop (rest : List Spot) : Skips rest rest
  | outside {spot : Spot} {rest last : List Spot} (outside : spot.inCode = false)
      (later : Skips rest last) : Skips (spot :: rest) last
  | subscript {inside rest last : List Spot}
      (nested : squareDepth 1 (inside.map Spot.piece) = some 1) (later : Skips rest last) :
      Skips (⟨punct '[', true⟩ :: (inside ++ ⟨punct ']', true⟩ :: rest)) last
  | member {between rest last : List Spot} {name : List Char}
      (outside : ∀ spot ∈ between, spot.inCode = false) (later : Skips rest last) :
      Skips (⟨punct '.', true⟩ :: (between ++ ⟨⟨.ident, name⟩, true⟩ :: rest)) last

theorem afterPosition_append {passed rest : List Placed}
    (others : ∀ entry ∈ passed, entry.position ≠ pos) :
    afterPosition pos (passed ++ rest) = afterPosition pos rest := by
  induction passed with
  | nil => rfl
  | cons entry further ih => simp_all [afterPosition]

/-- The code behind the bracket that closes a subscript, which must be code. -/
theorem afterPosition_closer (closes : lexeme closer = punct ']') (index : Nat) :
    afterPosition (index + inside.length) (codeFrom false index (inside ++ closer :: rest)) =
      if inside.foldl onDirective false then .error .subscriptCloserInDirective
      else .ok (codeFrom false (index + inside.length + 1) rest) := by
  have before : ∀ entry ∈ codeFrom false index inside, entry.position ≠ index + inside.length := by
    intro entry member
    have := position_of_mem_codeFrom member
    omega
  have line : ∀ onLine, onDirective onLine closer = onLine := by
    intro onLine
    show directiveAfter onLine (lexeme closer) = onLine
    rw [closes]
    rfl
  have solid : closer.isTrivia = false := by
    show (lexeme closer).kind.isTrivia = false
    rw [closes]
    rfl
  rw [codeFrom_append, afterPosition_append before, codeFrom, line, solid, Bool.or_false]
  cases inside.foldl onDirective false with
  | false =>
    rw [if_neg (by decide), if_neg (by decide), afterPosition, if_pos (by simp)]
  | true =>
    have behind : ∀ entry ∈ codeFrom true (index + inside.length + 1) rest,
        entry.position ≠ index + inside.length := by
      intro entry member
      have := position_of_mem_codeFrom member
      omega
    have nowhere := @afterPosition_append _ _ [] behind
    rw [append_nil] at nowhere
    rw [if_pos rfl, nowhere]
    rfl

section Steps

variable {tokens : List Token} {entry : Placed} {rest : List Placed}

theorem skipAccessors_unclosed (opens : entry.token.isPunct "[")
    (unclosed : matching? tokens entry.position = none) :
    skipAccessors tokens (entry :: rest) = .ok (entry :: rest) := by
  rw [skipAccessors.eq_def]
  simp only [opens, if_true, unclosed]

theorem skipAccessors_closed {closer : Nat} (opens : entry.token.isPunct "[")
    (closes : matching? tokens entry.position = some closer) :
    skipAccessors tokens (entry :: rest) = afterPosition closer rest >>= skipAccessors tokens := by
  rw [skipAccessors.eq_def]
  simp only [opens, if_true, closes]
  split
  next fault broken =>
    rw [broken]
    rfl
  next after found =>
    rw [found]
    rfl

theorem skipAccessors_member {member : Placed} (point : entry.token.isPunct ".")
    (named : member.token.isIdent) :
    skipAccessors tokens (entry :: member :: rest) = skipAccessors tokens rest := by
  have other : entry.token.isPunct "[" = false := by
    simp only [isPunct, Bool.and_eq_true, beq_iff_eq] at point
    simp [isPunct, point.2]
  rw [skipAccessors.eq_def]
  grind

theorem skipAccessors_point (point : entry.token.isPunct ".")
    (other : rest.head?.any (·.token.isIdent) = false) :
    skipAccessors tokens (entry :: rest) = .ok (entry :: rest) := by
  have notOpening : entry.token.isPunct "[" = false := by
    simp only [isPunct, Bool.and_eq_true, beq_iff_eq] at point
    simp [isPunct, point.2]
  rw [skipAccessors.eq_def]
  grind

theorem skipAccessors_other (opens : entry.token.isPunct "[" = false)
    (point : entry.token.isPunct "." = false) :
    skipAccessors tokens (entry :: rest) = .ok (entry :: rest) := by
  rw [skipAccessors.eq_def]
  grind

end Steps

theorem matching?_subscript {index : Nat}
    (aligned : tokens.drop index = opener :: (inside ++ closer :: rest))
    (opens : lexeme opener = punct '[') (closes : lexeme closer = punct ']')
    (nested : squareDepth 1 (inside.map lexeme) = some 1) :
    matching? tokens index = some (index + 1 + inside.length) := by
  grind [squareDepth_eq, bracketPairs, matching?_of_depthAfter]

/-- A subscript is passed over if it closes in code. -/
theorem skipAccessors_subscript {index : Nat}
    (aligned : tokens.drop index = opener :: (inside ++ closer :: rest))
    (opens : lexeme opener = punct '[') (closes : lexeme closer = punct ']')
    (nested : squareDepth 1 (inside.map lexeme) = some 1) :
    skipAccessors tokens (codeFrom false index (opener :: (inside ++ closer :: rest))) =
      if inside.foldl onDirective false then .error .subscriptCloserInDirective
      else skipAccessors tokens (codeFrom false (index + (inside.length + 2)) rest) := by
  have line : onDirective false opener = false := by
    show directiveAfter false (lexeme opener) = false
    rw [opens]
    rfl
  have solid : opener.isTrivia = false := by
    show (lexeme opener).kind.isTrivia = false
    rw [opens]
    rfl
  have isOpener : opener.isPunct "[" := by rw [isPunct_opening, opens]; decide
  rw [codeFrom, line, solid, if_neg (by decide),
    skipAccessors_closed isOpener (matching?_subscript aligned opens closes nested),
    afterPosition_closer closes]
  split
  · rfl
  · rw [show index + 1 + inside.length + 1 = index + (inside.length + 2) by omega]
    rfl

theorem codeFrom_front {front : List Token}
    (outside : ∀ spot ∈ spots onLine (front.map lexeme), spot.inCode = false) (index : Nat)
    (rest : List Token) :
    codeFrom onLine index (front ++ rest) =
      codeFrom (front.foldl onDirective onLine) (index + front.length) rest := by
  rw [codeFrom_append, codeFrom_of_spots index outside, nil_append]
/-! Walking over the code of tokens. -/

section Walk

variable {tokens : List Token} {index : Nat} {onLine : Bool}

def spotsAt (tokens : List Token) (index : Nat) (onLine : Bool) : List Spot :=
  spots onLine ((tokens.drop index).map lexeme)

def codeAt (tokens : List Token) (index : Nat) (onLine : Bool) : List Placed :=
  codeFrom onLine index (tokens.drop index)

theorem exists_next {spot : Spot} {rest : List Spot}
    (shape : spotsAt tokens index onLine = spot :: rest) :
    ∃ pos token, tokens.drop pos = token :: tokens.drop (pos + 1) ∧
      lexeme token = spot.piece ∧ spotsAt tokens (pos + 1) (!spot.inCode) = rest ∧
      codeAt tokens index onLine = (if spot.inCode then [⟨pos, token⟩] else []) ++
        codeAt tokens (pos + 1) (!spot.inCode) := by
  obtain ⟨front, token, back, parts, nothing, piece, solid, inCode, later⟩ :=
    exists_token_cons shape
  have here : tokens.drop (index + front.length) = token :: back := by
    rw [← drop_drop, parts, List.drop_left]
  have behind : tokens.drop (index + front.length + 1) = back := by
    rw [← drop_drop, here]
    rfl
  have line : onDirective (front.foldl onDirective onLine) token = !spot.inCode := by
    rw [inCode, Bool.not_not]
  refine ⟨index + front.length, token, by rw [here, behind], piece, ?_, ?_⟩
  · rw [spotsAt, behind, ← line, later]
  · rw [codeAt, parts, codeFrom_front (by grind),
      codeFrom, line, solid, codeAt, behind]
    cases spot.inCode <;> rfl

theorem codeAt_nil (shape : spotsAt tokens index onLine = []) : codeAt tokens index onLine = [] := by
  apply codeFrom_of_spots
  grind [spotsAt]

theorem exists_behind {between rest : List Spot} (outside : ∀ spot ∈ between, spot.inCode = false)
    (shape : spotsAt tokens index onLine = between ++ rest) :
    ∃ later line, spotsAt tokens later line = rest ∧
      codeAt tokens index onLine = codeAt tokens later line := by
  induction between generalizing index onLine with
  | nil => exact ⟨index, onLine, shape, rfl⟩
  | cons spot others ih => grind [exists_next]

theorem foldl_lexeme (onLine : Bool) (tokens : List Token) :
    (tokens.map lexeme).foldl directiveAfter onLine = tokens.foldl onDirective onLine :=
  foldl_map

/-- A subscript that closes in code is passed over, and any other one is a fault. -/
theorem skipAccessors_brackets {inside rest : List Spot} {closesInCode : Bool}
    (shape : spotsAt tokens index onLine =
      ⟨punct '[', true⟩ :: (inside ++ ⟨punct ']', closesInCode⟩ :: rest))
    (nested : squareDepth 1 (inside.map Spot.piece) = some 1) :
    ∃ later, spotsAt tokens later (!closesInCode) = rest ∧
      skipAccessors tokens (codeAt tokens index onLine) =
        if closesInCode then skipAccessors tokens (codeAt tokens later (!closesInCode))
        else .error .subscriptCloserInDirective := by
  obtain ⟨pos, opener, aligned, opens, next, code⟩ := exists_next shape
  simp only [Bool.not_true] at next code
  obtain ⟨first, second, parts, firstSpots, secondSpots⟩ := exists_tokens_append next
  obtain ⟨front, closer, back, rfl, nothing, closes, -, inCode, behind⟩ :=
    exists_token_cons secondSpots
  have keepsLine : onDirective ((first ++ front).foldl onDirective false) closer =
      (first ++ front).foldl onDirective false := by
    show directiveAfter _ (lexeme closer) = _
    rw [closes]
    rfl
  have line : (first ++ front).foldl onDirective false = !closesInCode := by
    rw [← keepsLine, foldl_append, ← Bool.not_not (onDirective _ _)]
    exact congrArg (!·) inCode.symm
  have insideNested : squareDepth 1 ((first ++ front).map lexeme) = some 1 := by
    rw [← squareDepth_spots false, map_append, spots_append, foldl_lexeme, nothing,
      append_nil, firstSpots, nested]
  have whole : tokens.drop pos = opener :: ((first ++ front) ++ closer :: back) := by
    rw [aligned, parts, append_assoc]
  have last : tokens.drop (pos + ((first ++ front).length + 2)) = back := by
    rw [← drop_drop, whole, drop_succ_cons, ← drop_drop, List.drop_left]
    rfl
  have codeHere : codeAt tokens index onLine = codeFrom false pos (tokens.drop pos) := by
    have solid : opener.isTrivia = false := by
      show (lexeme opener).kind.isTrivia = false
      rw [opens]
      rfl
    have outside : onDirective false opener = false := by
      show directiveAfter false (lexeme opener) = false
      rw [opens]
      rfl
    rw [code, aligned, codeFrom, outside, solid]
    rfl
  refine ⟨pos + ((first ++ front).length + 2), ?_, ?_⟩
  · rw [spotsAt, last, ← line, ← keepsLine, foldl_append, behind]
  · rw [codeHere, whole, skipAccessors_subscript whole opens closes insideNested, codeAt, last, line]
    cases closesInCode <;> rfl

/-- Passing over accessors does not change what is found behind them. -/
theorem Skips.skipAccessors {passed last : List Spot} (skips : Skips passed last)
    (shape : spotsAt tokens index onLine = passed) :
    ∃ later line, spotsAt tokens later line = last ∧
      Usage.skipAccessors tokens (codeAt tokens index onLine) =
        Usage.skipAccessors tokens (codeAt tokens later line) := by
  induction skips generalizing index onLine with
  | stop rest => exact ⟨index, onLine, shape, rfl⟩
  | outside outside later ih =>
    obtain ⟨next, line, rest, same⟩ := exists_behind (forall_mem_singleton.mpr outside) shape
    rw [same]
    exact ih rest
  | subscript nested later ih =>
    obtain ⟨next, behind, same⟩ := skipAccessors_brackets shape nested
    rw [same]
    exact ih behind
  | member outside later ih =>
    obtain ⟨pos, point, -, isPoint, between, code⟩ := exists_next shape
    obtain ⟨next, line, named, sameBetween⟩ := exists_behind outside between
    obtain ⟨place, name, -, isName, behind, nameCode⟩ := exists_next named
    have pointed : point.isPunct "." := by
      rw [← isPoint_lexeme, isPoint]
      rfl
    have identifier : name.isIdent := by
      show (lexeme name).kind == .ident
      rw [isName]
      rfl
    grind [skipAccessors_member]

/-- Either all spots lie outside of code, or one is the first of code. -/
theorem exists_first (passed : List Spot) :
    (∀ spot ∈ passed, spot.inCode = false) ∨
      ∃ between piece rest, passed = between ++ ⟨piece, true⟩ :: rest ∧
        ∀ spot ∈ between, spot.inCode = false := by
  induction passed with
  | nil => exact .inl fun _ absurdity => by cases absurdity
  | cons spot others ih =>
    obtain ⟨piece, inCode⟩ := spot
    cases inCode with
    | true => exact .inr ⟨[], piece, others, rfl, fun _ absurdity => by cases absurdity⟩
    | false => grind

/-- The bracket that closes a subscript, among the spots. -/
theorem exists_closing {closer : Nat} (aligned : tokens.drop pos = opener :: tokens.drop (pos + 1))
    (opens : lexeme opener = punct '[') (found : matching? tokens pos = some closer) :
    ∃ inside closesInCode rest,
      spotsAt tokens (pos + 1) false = inside ++ ⟨punct ']', closesInCode⟩ :: rest ∧
        squareDepth 1 (inside.map Spot.piece) = some 1 := by
  obtain ⟨inside, bracket, rest, parts, -, isPair, nested⟩ :=
    exists_of_matching? (lexeme_eq opens).1 aligned found
  have closes : lexeme bracket = punct ']' :=
    ((pair_unique _ isPair (punct '[', punct ']') (by decide)).1.mp opens)
  rw [opens, closes, ← squareDepth_eq] at nested
  have whole : spotsAt tokens (pos + 1) false = spots false (inside.map lexeme) ++
      spots ((inside.map lexeme).foldl directiveAfter false) (punct ']' :: rest.map lexeme) := by
    rw [spotsAt, parts, map_append, map_cons, spots_append, closes]
  exact ⟨_, _, _, whole, by rw [squareDepth_spots, nested]⟩

/-- Spots go on, behind accessors, with a subscript that does not close in code. -/
def Breaks (passed : List Spot) : Prop :=
  ∃ inside rest, Skips passed (⟨punct '[', true⟩ :: (inside ++ ⟨punct ']', false⟩ :: rest)) ∧
    squareDepth 1 (inside.map Spot.piece) = some 1

/-- What is found behind accessors, or a subscript that does not close in code. -/
inductive Skipped (tokens : List Token) (index : Nat) (onLine : Bool) : Prop where
  | ends (later : Nat) (line : Bool)
      (skips : Skips (spotsAt tokens index onLine) (spotsAt tokens later line))
      (found : skipAccessors tokens (codeAt tokens index onLine) = .ok (codeAt tokens later line))
  | breaks (breaks : Breaks (spotsAt tokens index onLine))
      (faults : skipAccessors tokens (codeAt tokens index onLine) =
        .error .subscriptCloserInDirective)

theorem Skipped.stop
    (found : skipAccessors tokens (codeAt tokens index onLine) = .ok (codeAt tokens index onLine)) :
    Skipped tokens index onLine :=
  .ends index onLine (.stop _) found

theorem Skipped.behind {later : Nat} {line : Bool} (skipped : Skipped tokens later line)
    (skips : ∀ last, Skips (spotsAt tokens later line) last →
      Skips (spotsAt tokens index onLine) last)
    (same : skipAccessors tokens (codeAt tokens index onLine) =
      skipAccessors tokens (codeAt tokens later line)) : Skipped tokens index onLine := by
  cases skipped with
  | ends last lastLine laterSkips found => exact .ends last lastLine (skips _ laterSkips) (same ▸ found)
  | breaks breaks faults =>
    obtain ⟨inside, rest, laterSkips, nested⟩ := breaks
    exact .breaks ⟨inside, rest, skips _ laterSkips, nested⟩ (same ▸ faults)

/-- From a subscript on. -/
theorem skipped_subscript {token : Token}
    (aligned : tokens.drop pos = token :: tokens.drop (pos + 1))
    (opens : lexeme token = punct '[')
    (shape : spotsAt tokens index onLine = ⟨punct '[', true⟩ :: spotsAt tokens (pos + 1) false)
    (code : codeAt tokens index onLine = ⟨pos, token⟩ :: codeAt tokens (pos + 1) false)
    (shorter : ∀ later line, (spotsAt tokens later line).length <
      (spotsAt tokens index onLine).length → Skipped tokens later line) :
    Skipped tokens index onLine := by
  have isOpener : token.isPunct "[" := by rw [isPunct_opening, opens]; decide
  cases found : matching? tokens pos with
  | none => exact .stop (by rw [code]; exact skipAccessors_unclosed isOpener found)
  | some closer =>
    obtain ⟨inside, closesInCode, rest, parts, nested⟩ := exists_closing aligned opens found
    rw [parts] at shape
    obtain ⟨later, behind, same⟩ := skipAccessors_brackets shape nested
    cases closesInCode with
    | false => exact .breaks ⟨inside, rest, shape ▸ .stop _, nested⟩ same
    | true =>
      refine (shorter later false ?_).behind ?_ same
      · grind
      · intro last skips
        rw [shape]
        rw [show spotsAt tokens later false = rest from behind] at skips
        exact .subscript nested skips

/-- From a point on. -/
theorem skipped_point {token : Token} (point : lexeme token = punct '.')
    (shape : spotsAt tokens index onLine = ⟨punct '.', true⟩ :: spotsAt tokens (pos + 1) false)
    (code : codeAt tokens index onLine = ⟨pos, token⟩ :: codeAt tokens (pos + 1) false)
    (shorter : ∀ later line, (spotsAt tokens later line).length <
      (spotsAt tokens index onLine).length → Skipped tokens later line) :
    Skipped tokens index onLine := by
  have pointed : token.isPunct "." := by
    rw [← isPoint_lexeme, point]
    rfl
  have ends : (codeAt tokens (pos + 1) false).head?.any (·.token.isIdent) = false →
      Skipped tokens index onLine :=
    fun other => .stop (by rw [code]; exact skipAccessors_point pointed other)
  rcases exists_first (spotsAt tokens (pos + 1) false) with
    all | ⟨between, piece, rest, parts, outside⟩
  · have nothing : codeAt tokens (pos + 1) false = [] := codeFrom_of_spots _ all
    exact ends (by rw [nothing]; rfl)
  · obtain ⟨next, line, named, sameBetween⟩ := exists_behind outside parts
    obtain ⟨place, name, -, isName, behind, nameCode⟩ := exists_next named
    simp only [Bool.not_true, if_true, singleton_append] at behind nameCode isName
    rw [sameBetween, nameCode] at ends
    cases identifier : name.isIdent with
    | false => exact ends identifier
    | true =>
      have kind : piece.kind = .ident := by
        rw [← isName]
        exact beq_iff_eq.mp identifier
      refine (shorter (place + 1) false ?_).behind ?_ ?_
      · grind
      · intro last skips
        obtain ⟨pieceKind, text⟩ := piece
        obtain rfl : pieceKind = .ident := kind
        rw [shape, parts]
        rw [behind] at skips
        exact .member outside skips
      · rw [code, sameBetween, nameCode, skipAccessors_member pointed identifier]

theorem skipped (tokens : List Token) (index : Nat) (onLine : Bool) :
    Skipped tokens index onLine := by
  induction size : (spotsAt tokens index onLine).length using Nat.strongRecOn
    generalizing index onLine with
  | ind size ih =>
  subst size
  have shorter : ∀ later line, (spotsAt tokens later line).length <
      (spotsAt tokens index onLine).length → Skipped tokens later line :=
    fun later line less => ih _ less later line rfl
  cases shape : spotsAt tokens index onLine with
  | nil => exact .stop (by rw [codeAt_nil shape, skipAccessors.eq_def])
  | cons spot rest =>
    obtain ⟨pos, token, aligned, isPiece, behind, code⟩ := exists_next shape
    obtain ⟨piece, inCode⟩ := spot
    cases inCode with
    | false =>
      refine (shorter (pos + 1) true ?_).behind ?_ ?_
      · grind
      · intro last skips
        rw [show spotsAt tokens (pos + 1) true = rest from behind] at skips
        rw [shape]
        exact .outside rfl skips
      · rw [code]
        rfl
    | true =>
      by_cases opens : piece = punct '['
      · grind [skipped_subscript]
      · by_cases point : piece = punct '.'
        · grind [skipped_point]
        · have notOpener : token.isPunct "[" = false := by
            rw [isPunct_opening, isPiece]
            exact beq_eq_false_iff_ne.mpr opens
          have notPoint : token.isPunct "." = false := by
            rw [isPunct_lexeme, isPiece]
            exact beq_eq_false_iff_ne.mpr point
          exact .stop (by rw [code]; exact skipAccessors_other notOpener notPoint)

end Walk

end WebShader.Usage
