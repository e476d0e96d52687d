import WebShader.Proofs.Coercion.Settling

/-!
Contract: the measure that every round of coercion makes smaller.

Owns: the operands that rounds may still edit, and that a round which changes a
source leaves fewer of them.

Does not own: the history of the tokens; that is `Settling`.

An edited token is no operand any more: it is a number with a fraction, or a name
alone between parentheses. The function in front of them is called, so it is none
either, and the tokens around see no other bracket than before. What is left and
what has been edited therefore always add up to the same number.
-/

namespace WebShader.Coercion

open List Token Item

/-- Whether a piece of code may still be edited: a bare integer, or a name that is neither called
nor alone between parentheses. -/
def isOperand (opened : Bool) (piece : Lexeme) (next : Option Lexeme) : Bool :=
  (piece.kind == .number && isBareInteger (String.ofList piece.text)) ||
    (piece.kind == .ident && next != some (punct '(') && !(opened && next == some (punct ')')))

def punct? (code : List Lexeme) : Option Lexeme :=
  code.head?.filter (·.kind == .punct)

def operandCount (opened : Bool) : List Lexeme → Nat
  | [] => 0
  | piece :: rest =>
    (isOperand opened piece (punct? rest)).toNat + operandCount (piece == punct '(') rest

def codeOf (source : String) : List Lexeme :=
  (code (lex source)).map fun placed => lexeme placed.token

def openOperands (source : String) : Nat :=
  operandCount false (codeOf source)

variable {opened : Bool} {passed front rest later : List Lexeme} {item step : Item}
  {items laters : List Item}

def opens (passed : List Lexeme) : Bool :=
  passed.head? == some (punct '(')

/-- Pieces that stay count alike in front of the same punctuation. -/
theorem operandCount_append {edits edited : Nat} (right : punct? later = punct? rest)
    (behind : operandCount (opens (front.reverse ++ passed)) later + edited =
      operandCount (opens (front.reverse ++ passed)) rest + edits) :
    operandCount (opens passed) (front ++ later) + edited =
      operandCount (opens passed) (front ++ rest) + edits := by
  induction front generalizing passed with
  | nil => exact behind
  | cons piece front ih =>
    have ahead : punct? (front ++ later) = punct? (front ++ rest) := by
      cases front with
      | nil => exact right
      | cons _ _ => rfl
    have state : (piece == punct '(') = opens (piece :: passed) := rfl
    grind [operandCount]

/-! One round. -/

/-- An item stays, or it is code that is edited for the first time. -/
theorem Item.Advances.cases (advances : item.Advances step) :
    step = item ∨ item = ⟨item.piece, true, .keep⟩ ∧ step = ⟨item.piece, true, step.edit⟩ ∧
      step.edit ≠ .keep := by
  obtain ⟨piece, isCode, edit⟩ := item
  obtain ⟨_, _, edited⟩ := step
  obtain ⟨rfl, rfl, same | ⟨rfl, fits⟩⟩ := advances
  · exact .inl (by rw [show edited = edit from same])
  · by_cases kept : edited = .keep
    · exact .inl (by rw [kept])
    simp_all [Item.fits]

/-- Code starts with the same punctuation after a round. -/
theorem Steps.punct? (steps : Steps passed items laters) :
    Coercion.punct? (laters.flatMap code) = Coercion.punct? (items.flatMap code) := by
  induction steps with
  | nil => rfl
  | @cons passed item step rest laters advances decided _ ih =>
    rw [flatMap_cons, flatMap_cons]
    rcases advances.cases with rfl | ⟨isItem, isStep, edited⟩
    · cases shape : step.code with
      | nil => exact ih
      | cons _ _ => rfl
    · have allowed := decided.resolve_left fun same => edited (by rw [same, isItem])
      have plain : (item.piece.kind == .punct) = false := beq_eq_false_iff_ne.mpr fun isPunct =>
        edited (Edit.eq_keep_of_punct allowed isPunct)
      have none (piece : Lexeme) (others : List Lexeme) (other : (piece.kind == .punct) = false) :
          Coercion.punct? (piece :: others) = none := by
        rw [Coercion.punct?, head?_cons, Option.filter_some, other, if_neg Bool.false_ne_true]
      rw [isItem, isStep]
      refine Eq.trans ?_ (none item.piece _ plain).symm
      cases shape : step.edit with
      | keep => exact absurd shape edited
      | widen => exact none _ _ plain
      | toFloat | toInteger => rfl

/-- An edited piece was an operand, and none of the pieces in its place is one. -/
theorem operandCount_edit {edit : Edit} {piece : Lexeme} (edited : edit ≠ .keep)
    (allowed : edit.Allowed passed piece rest.head?) :
    operandCount opened (edit.pieces piece ++ later) = operandCount false later ∧
      operandCount (opens passed) (piece :: rest) = operandCount false rest + 1 ∧
      opens (piece :: passed) = false := by
  obtain ⟨suits, allowed⟩ := allowed
  obtain ⟨kind, text⟩ := piece
  cases edit with
  | keep => exact absurd rfl edited
  | widen =>
    simp only [Edit.suits, Bool.and_eq_true, beq_iff_eq] at suits
    obtain ⟨rfl, bare⟩ := suits
    have closed : isOperand opened ⟨.number, text ++ ['.', '0']⟩ (punct? later) = false := by
      rw [isOperand, isBareInteger_widened]
      rfl
    have wasOpen : isOperand (opens passed) ⟨.number, text⟩ (punct? rest) := by
      simp [isOperand, bare]
    refine ⟨?_, by rw [operandCount, wasOpen, Nat.add_comm]; rfl, rfl⟩
    rw [Edit.pieces, singleton_append, operandCount, closed, Bool.toNat_false, Nat.zero_add]
    rfl
  | toFloat | toInteger =>
    simp only [Edit.suits, beq_iff_eq] at suits
    obtain rfl := suits
    obtain ⟨uncalled, -, free⟩ := allowed
    have wasOpen : isOperand (opens passed) ⟨.ident, text⟩ (punct? rest) := by
      have standing {c : Char} (found : punct? rest = some (punct c)) :
          rest.head? = some (punct c) := (Option.filter_eq_some_iff.mp found).1
      simp only [isOperand, opens, bne_iff_ne, beq_iff_eq, Bool.and_eq_true, Bool.not_eq_true',
        Bool.and_eq_false_imp, beq_eq_false_iff_ne, Bool.or_eq_true]
      exact .inr ⟨⟨trivial, fun called => uncalled (standing called)⟩,
        fun enclosed closed => free ⟨enclosed, standing closed⟩⟩
    refine ⟨?_, by rw [operandCount, wasOpen, Nat.add_comm]; rfl, rfl⟩
    show 0 + (0 + (0 + (0 + operandCount false later))) = _
    simp only [Nat.zero_add]

/-- The operands that are left and the edits that are made stay the same number. -/
theorem Steps.operandCount (steps : Steps passed items laters) :
    Coercion.operandCount (opens passed) (laters.flatMap code) + laters.countP isEdited =
      Coercion.operandCount (opens passed) (items.flatMap code) +
        items.countP isEdited := by
  induction steps with
  | nil => rfl
  | @cons passed item step rest laters advances decided others ih =>
    rw [countP_cons, countP_cons, ← Nat.add_assoc, ← Nat.add_assoc]
    rcases advances.cases with rfl | ⟨isItem, isStep, edited⟩
    · exact congrArg (· + _) (operandCount_append others.punct? ih)
    · have allowed := decided.resolve_left fun same => edited (by rw [same, isItem])
      obtain ⟨after, before, closed⟩ :=
        @operandCount_edit (opens passed) passed _ (laters.flatMap code) _ _ edited allowed
      have marked : isEdited ⟨item.piece, true, step.edit⟩ := by simpa [isEdited] using edited
      have unmarked : isEdited ⟨item.piece, true, .keep⟩ = false := rfl
      have afterItem : code ⟨item.piece, true, step.edit⟩ = step.edit.pieces item.piece := rfl
      have beforeItem : code ⟨item.piece, true, .keep⟩ = [item.piece] := rfl
      grind

/-! All rounds. -/

theorem codeOf_eq (source : String) : codeOf source = codePieces false (lexemes source.toList) := by
  rw [codeOf, Token.code, codeFrom_lexemes, lex_eq_place, lexeme_place]

theorem openOperands_eq {source : String} (marked : Marked false items)
    (fits : ∀ item ∈ items, item.fits) (splits : Splits source.toList (editedPieces items)) :
    openOperands source = operandCount false (items.flatMap code) := by
  rw [openOperands, codeOf_eq, splits.lexemes_eq, codePieces_editedPieces marked fits]

/-- Rounds settle after at most as many rounds as there are tokens, and a round that changes the
source leaves fewer operands. -/
theorem round_descends (context source : String)
    (apart : numbersApart (lexemes source.toList) = true) :
    (∃ count, count ≤ (lex source).length ∧
      round context ((round context)^[count] source) = (round context)^[count] source) ∧
    ∀ count, (round context)^[count + 1] source ≠ (round context)^[count] source →
      openOperands ((round context)^[count + 1] source) <
        openOperands ((round context)^[count] source) := by
  refine ⟨?_, ?_⟩
  · obtain ⟨count, atMost, settled⟩ := exists_settled context apart
    refine ⟨count, Nat.le_trans atMost ?_, settled⟩
    calc (unedited source).countP isEditable ≤ (unedited source).length := countP_le_length
      _ = (lex source).length := by rw [unedited, length_map, length_zipIdx]
  · intro count changed
    obtain ⟨history, -, reached⟩ := exists_steps apart context
    obtain ⟨now, steps⟩ := reached count
    have next := (reached (count + 1)).1
    rw [openOperands_eq now.marked now.fits (now.splits apart),
      openOperands_eq next.marked next.fits (next.splits apart)]
    have total := steps.operandCount
    rcases Advances.isEdited steps.advances with same | more
    · refine absurd (String.toList_injective ?_) changed
      rw [next.text, now.text, same]
    · rw [show opens [] = false from rfl] at total
      omega

theorem round_descends_mixedSum :
    numbersApart (lexemes mixedSum.toList) = true ∧ openOperands mixedSum = 6 ∧
      round "" mixedSum = "uniform int A;x=1.5+float(A)+2;" ∧
      openOperands (round "" mixedSum) < openOperands mixedSum := by
  have apart : numbersApart (lexemes mixedSum.toList) = true := by decide +kernel
  have text : round "" mixedSum = "uniform int A;x=1.5+float(A)+2;" := by decide +kernel
  refine ⟨apart, by decide +kernel, text, (round_descends "" mixedSum apart).2 0 ?_⟩
  rw [Function.iterate_succ_apply, Function.iterate_zero_apply, Function.iterate_zero_apply, text]
  decide

end WebShader.Coercion
