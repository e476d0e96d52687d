import WebShader.Coercion.Operand
import WebShader.Proofs.Token.Relexing

/-!
Contract: the edits that coercion makes to tokens.

Owns: what may become of a token, sources in which some tokens have been edited,
and the tokens that such a source splits into.

Does not own: which tokens a round edits; that is `Round`.

An edited source is compared with the source that it comes from, however many
rounds lie between them, so its tokens are found by one walk and not round by
round. A number in front of a name might swallow the call that encloses the
name, so numbers and names have to stand apart.
-/

namespace WebShader.Coercion

open List Token
open Text

/-- What becomes of a token: it stays, an integer gets a fraction, or a call
encloses a name. -/
inductive Edit where
  | keep
  | widen
  | toFloat
  | toInteger
  deriving DecidableEq, Repr

namespace Edit

def call (function : String) (argument : Lexeme) : List Lexeme :=
  [⟨.ident, function.toList⟩, ⟨.punct, ['(']⟩, argument, ⟨.punct, [')']⟩]

def pieces : Edit → Lexeme → List Lexeme
  | .keep, piece => [piece]
  | .widen, piece => [⟨piece.kind, piece.text ++ ['.', '0']⟩]
  | .toFloat, piece => call "float" piece
  | .toInteger, piece => call "int" piece

/-- Only a bare integer gets a fraction, and only a name is enclosed. -/
def suits (piece : Lexeme) : Edit → Bool
  | .keep => true
  | .widen => piece.kind == .number && isBareInteger (String.ofList piece.text)
  | .toFloat | .toInteger => piece.kind == .ident

end Edit

/-- A lexeme of a source, whether it is code, and what has become of it. -/
structure Item where
  piece : Lexeme
  isCode : Bool
  edit : Edit
  deriving DecidableEq, Repr

namespace Item

def pieces (item : Item) : List Lexeme :=
  item.edit.pieces item.piece

/-- An edited lexeme is code that suits the edit. -/
def fits (item : Item) : Bool :=
  item.edit == .keep || (item.isCode && item.edit.suits item.piece)

theorem suits_of_fits {item : Item} (fits : item.fits) : item.edit.suits item.piece := by
  simp only [Item.fits, Bool.or_eq_true, beq_iff_eq, Bool.and_eq_true] at fits
  rcases fits with kept | edited
  · rw [kept]
    rfl
  · exact edited.2

end Item

def editedPieces (items : List Item) : List Lexeme :=
  items.flatMap Item.pieces

def editedText (items : List Item) : List Char :=
  (editedPieces items).flatMap Lexeme.text

theorem editedText_cons (item : Item) (rest : List Item) :
    editedText (item :: rest) = item.pieces.flatMap Lexeme.text ++ editedText rest := by
  simp [editedText, editedPieces]

/-! Integers with a fraction. -/

theorem digits_of_isBareInteger {text : String} (bare : isBareInteger text) :
    text.toList ≠ [] ∧ ∀ c ∈ text.toList, isDigit c := by
  rw [isBareInteger] at bare
  split at bare
  next zero =>
    rw [zero]
    refine ⟨cons_ne_nil _ _, ?_⟩
    intro c mem
    rw [mem_singleton.mp mem]
    rfl
  next first rest _ shape =>
    rw [shape]
    simp only [Bool.and_eq_true, decide_eq_true_eq] at bare
    obtain ⟨⟨atLeast, atMost⟩, later⟩ := bare
    refine ⟨cons_ne_nil _ _, ?_⟩
    intro c mem
    rcases mem_cons.mp mem with rfl | further
    · have lower : '1'.toNat ≤ c.toNat := atLeast
      have upper : c.toNat ≤ '9'.toNat := atMost
      have high : c.toNat ≤ 57 := upper
      rw [isDigit, digitValue?, if_pos (by omega),
        if_pos (by grind)]
      rfl
    · exact all_eq_true.mp later c further
  · cases bare

theorem digit_plain {c : Char} (digit : isDigit c) : c ≠ '\\' ∧ c ≠ '\r' ∧ isGap c = false := by
  refine ⟨?_, ?_, ?_⟩
  · rintro rfl
    exact absurd digit (by decide)
  · rintro rfl
    exact absurd digit (by decide)
  · cases gap : isGap c with
    | false => rfl
    | true =>
      simp only [isGap, Bool.or_eq_true, beq_iff_eq] at gap
      rcases gap with rfl | rfl <;> exact absurd digit (by decide)

theorem run_digits {digits : List Char} (present : digits ≠ [])
    (areDigits : ∀ c ∈ digits, isDigit c) :
    ∃ mode, Mode.number.run digits = some mode ∧ (mode = .zero ∨ mode = .digits) := by
  have goesOn : ∀ {mode : Mode} {c : Char}, isDigit c →
      mode = .number ∨ mode = .zero ∨ mode = .digits →
      ∃ later, mode.next c = some later ∧ (later = .zero ∨ later = .digits) := by
    intro mode c digit inside
    have unmarked : c ≠ 'x' ∧ c ≠ 'X' := by
      constructor <;> (rintro rfl; exact absurd digit (by decide))
    rcases inside with rfl | rfl | rfl
    · by_cases zero : c = '0' <;> simp [Mode.next, zero, digit]
    · simp [Mode.next, Mode.afterDigit, unmarked, digit]
    · simp [Mode.next, Mode.afterDigit, digit]
  have run : ∀ {mode : Mode}, mode = .zero ∨ mode = .digits → ∀ others : List Char,
      (∀ c ∈ others, isDigit c) →
      ∃ later, mode.run others = some later ∧ (later = .zero ∨ later = .digits) := by
    intro mode inside others areDigits
    induction others generalizing mode with
    | nil => exact ⟨mode, rfl, inside⟩
    | cons c others ih =>
      obtain ⟨later, step, stays⟩ := goesOn (areDigits c mem_cons_self) (.inr inside)
      rw [Mode.run, step]
      exact ih stays fun d mem => areDigits d (mem_cons_of_mem c mem)
  obtain ⟨c, others, rfl⟩ := exists_cons_of_ne_nil present
  obtain ⟨first, step, stays⟩ := goesOn (areDigits c mem_cons_self) (.inl rfl)
  rw [Mode.run, step]
  exact run stays others fun d mem => areDigits d (mem_cons_of_mem c mem)

/-- Behind the digits of an integer no digit follows. -/
theorem digit_stops {digits rest : List Char} {kind : TokenKind}
    (leads : frontToken (digits ++ rest) = (kind, digits.length)) (present : digits ≠ [])
    (areDigits : ∀ c ∈ digits, isDigit c) : rest.head?.any isDigit = false := by
  obtain ⟨mode, reached, inside⟩ := run_digits present areDigits
  cases rest with
  | nil => rfl
  | cons c others =>
    apply Bool.eq_false_iff.mpr
    intro digit
    have step : mode.next c = some .digits := by
      have isDigit : isDigit c := digit
      have unmarked : c ≠ 'x' ∧ c ≠ 'X' := by
        constructor <;> (rintro rfl; exact absurd isDigit (by decide))
      rcases inside with rfl | rfl <;> simp [Mode.next, Mode.afterDigit, unmarked, isDigit]
    obtain ⟨length, longer⟩ := Mode.goesOn_cons.mpr ⟨_, step, Mode.longest_ne_none rfl others⟩
    simp_all [Mode.longest_of_run, Mode.number?_eq, frontToken_number]

/-- An integer with a fraction is one number, if neither a digit nor a name follows. -/
theorem frontToken_widened {digits rest : List Char} (present : digits ≠ [])
    (areDigits : ∀ c ∈ digits, isDigit c) (notDigit : rest.head?.any isDigit = false)
    (unnamed : startsName rest = false) :
    frontToken (digits ++ ['.', '0'] ++ rest) = (.number, (digits ++ ['.', '0']).length) := by
  obtain ⟨mode, reached, inside⟩ := run_digits present areDigits
  have stops : Mode.fraction.longest rest = some 0 := by
    cases rest with
    | nil => rfl
    | cons c others =>
      have letters : ∀ d ∈ ['e', 'E', 'l', 'L', 'f', 'F', 'h', 'H'], c ≠ d :=
        @ne_of_all isNameStart _ c (by decide) unnamed
      simp_all [Mode.longest, Mode.next, Mode.suffix, Mode.here, Mode.accepts]
  have point : mode.next '.' = some .fraction := by rcases inside with rfl | rfl <;> rfl
  have zero : Mode.fraction.next '0' = some .fraction := rfl
  simp_all [Mode.longest, Mode.longest_of_run, Mode.number?_eq, frontToken_number]

/-! Edited lexemes in front of edited text. -/

section Relexed

variable {piece : Lexeme} {rest other : List Char} {others : List Lexeme}
  (leads : frontToken (piece.text ++ rest) = (piece.kind, piece.text.length))
  (relexed : Relexed rest other others)

include leads relexed

theorem relexed_widen (number : piece.kind = .number) (apart : startsName rest = false)
    (bare : isBareInteger (String.ofList piece.text)) :
    Relexed (piece.text ++ rest) (piece.text ++ ['.', '0'] ++ other)
      (⟨piece.kind, piece.text ++ ['.', '0']⟩ :: others) := by
  obtain ⟨present, areDigits⟩ := digits_of_isBareInteger bare
  rw [String.toList_ofList] at present areDigits
  have otherApart : startsName other = false := by rw [relexed.replaces.startsName_eq, apart]
  have notDigit : other.head?.any isDigit = false := by
    cases head : other.head? with
    | none => rfl
    | some c =>
      cases digit : isDigit c with
      | false => exact digit
      | true =>
        have same := relexed.replaces.head.eq_of_plain head (digit_not_name digit)
          (not_inert (by decide) digit)
        grind [digit_stops]
  obtain ⟨c, tail, shape⟩ := exists_cons_of_ne_nil present
  have digit := areDigits c (by rw [shape]; exact mem_cons_self)
  refine ⟨.cons ?_ relexed.splits, ?_, ?_, ?_⟩
  · grind [frontToken_widened]
  · exact relexed.splits.numbersApart_cons.mpr ⟨fun _ => otherApart, relexed.apart⟩
  · rw [append_assoc]
    exact resembles_append (by rw [shape]; exact mem_cons_self) (digit_plain digit).1
      (digit_plain digit).2.1 rest _
  grind [namesAhead_cons, digit_plain]

/-- A call encloses a name. -/
theorem relexed_call {fn : String} (named : isName fn.toList) (ident : piece.kind = .ident) :
    Relexed (piece.text ++ rest) ((Edit.call fn piece).flatMap Lexeme.text ++ other)
      (Edit.call fn piece ++ others) := by
  obtain ⟨kind, text⟩ := piece
  obtain rfl : kind = .ident := ident
  have arg : isName text := isName_of_frontToken leads
  have shape : (Edit.call fn ⟨.ident, text⟩).flatMap Lexeme.text ++ other =
      fn.toList ++ (['('] ++ (text ++ ([')'] ++ other))) := by
    simp [Edit.call]
  have closed : Splits ([')'] ++ other) (⟨.punct, [')']⟩ :: others) :=
    .cons (frontToken_alone_punct (by decide) other) relexed.splits
  have inner : Splits (text ++ ([')'] ++ other)) (⟨.ident, text⟩ :: ⟨.punct, [')']⟩ :: others) :=
    .cons (frontToken_name arg rfl) closed
  have opened : Splits (['('] ++ (text ++ ([')'] ++ other)))
      (⟨.punct, ['(']⟩ :: ⟨.ident, text⟩ :: ⟨.punct, [')']⟩ :: others) :=
    .cons (frontToken_alone_punct (by decide) _) inner
  rw [shape]
  refine ⟨.cons (frontToken_name named rfl) opened, ?_, ?_⟩
  · simp [Edit.call, numbersApart, relexed.apart]
  · exact replaces_of_names (isName.startsName arg rest) (isName.startsName named _)

/-- Every edit that suits a lexeme leaves text that splits into the edited lexemes. -/
theorem relexed_edit (apart : piece.kind = .number → startsName rest = false) {edit : Edit}
    (suits : edit.suits piece) :
    Relexed (piece.text ++ rest) ((edit.pieces piece).flatMap Lexeme.text ++ other)
      (edit.pieces piece ++ others) := by
  cases edit with
  | keep => simpa [Edit.pieces] using relexed.keep leads apart
  | widen =>
    simp only [Edit.suits] at suits
    grind [Edit.pieces, relexed_widen]
  | toFloat => exact relexed_call leads relexed (by decide) (by simpa [Edit.suits] using suits)
  | toInteger => exact relexed_call leads relexed (by decide) (by simpa [Edit.suits] using suits)

end Relexed

/-- A source in which some tokens have been edited splits into the edited tokens. -/
theorem relexed_items {text : List Char} {items : List Item}
    (splits : Splits text (items.map Item.piece))
    (apart : numbersApart (items.map Item.piece))
    (fits : ∀ item ∈ items, item.fits) :
    Relexed text (editedText items) (editedPieces items) := by
  induction items generalizing text with
  | nil =>
    cases splits
    exact relexed_nil
  | cons item items ih =>
    obtain ⟨rest, rfl, leads, restSplits⟩ := splits.cons_inv
    obtain ⟨numberApart, restApart⟩ := restSplits.numbersApart_cons.mp apart
    have later := ih restSplits restApart (forall_mem_cons.mp fits).2
    rw [editedText_cons]
    exact relexed_edit leads later numberApart (item.suits_of_fits (fits item mem_cons_self))

end WebShader.Coercion
