import Mathlib.Data.List.Forall2
import WebShader.Coercion.Basic
import WebShader.Proofs.Coercion.Bracket
import WebShader.Proofs.Coercion.Edit

/-!
Contract: what one round of coercion does to the tokens of a source.

Owns: the edit that a round decides on for each token of the code, the text that
a round leaves, and that a round never edits an edited token again.

A name that is called, subscripted or alone in parentheses is no operand, and a
literal stays where only integers may stand.
-/

namespace WebShader.Coercion

open List Token Operand

variable {onLine : Bool} {edit : Edit} {items : List Item} {after before : List Operand}
  {passed : List Lexeme} {texts : List String} {tokens : List Token} {pos : Nat}
  {next : Option Lexeme} {token : Token} {typing : Typing}

/-! Decisions. -/

def Edit.text : Edit → String → String
  | .keep, text => text
  | .widen, text => text ++ ".0"
  | .toFloat, text => "float(" ++ text ++ ")"
  | .toInteger, text => "int(" ++ text ++ ")"

theorem Edit.text_pieces (edit : Edit) (token : Token) :
    (edit.pieces (lexeme token)).flatMap Lexeme.text = (edit.text token.text).toList := by
  cases edit <;> simp [Edit.pieces, Edit.call, Edit.text, lexeme]

/-- Whether a round may edit a piece of the code, given the code before it, backwards, and the
piece behind it. -/
def Edit.Allowed (passed : List Lexeme) (piece : Lexeme) (next : Option Lexeme) (edit : Edit) :
    Prop :=
  edit.suits piece = true ∧
    match edit with
    | .keep => True
    | .widen => ¬HoldsIntegers passed.reverse
    | .toFloat | .toInteger =>
      next ≠ some (punct '(') ∧ next ≠ some (punct '[') ∧
        ¬(passed.head? = some (punct '(') ∧ next = some (punct ')'))

/-- The texts of code in which each token has an edit that is allowed. -/
inductive Decides : List Lexeme → List Token → List String → Prop where
  | nil {passed : List Lexeme} : Decides passed [] []
  | cons {passed : List Lexeme} {token : Token} {rest : List Token} {texts : List String}
      (edit : Edit) (allowed : edit.Allowed passed (lexeme token) (rest.head?.map lexeme))
      (later : Decides (lexeme token :: passed) rest texts) :
      Decides passed (token :: rest) (edit.text token.text :: texts)

theorem not_isPunctIn_of_isPunct {text : String} (isText : token.isPunct text)
    (other : texts.contains text = false) : token.isPunctIn texts = false := by
  simp only [Token.isPunct, Bool.and_eq_true, beq_iff_eq] at isText
  rw [Token.isPunctIn, isText.2, other, Bool.and_false]

def Operand.piece (operand : Operand) : Lexeme :=
  lexeme operand.token

theorem exists_of_head?_piece {operands : List Operand} {text : String}
    (head : (operands.map piece).head? = some ⟨.punct, text.toList⟩) :
    ∃ operand rest, operands = operand :: rest ∧ operand.token.isPunct text := by
  cases operands with
  | nil => cases head
  | cons operand rest =>
    refine ⟨operand, rest, rfl, ?_⟩
    rw [isPunct_lexeme, ← Option.some.inj head]
    exact beq_self_eq_true _

/-- A name in parentheses of its own stands next to no operand. -/
theorem not_mixed_of_enclosed (opened : (before.map piece).head? = some (punct '('))
    (closed : (after.map piece).head? = some (punct ')')) :
    isMixedWithFloat typing before after = false := by
  obtain ⟨opener, _, rfl, opens⟩ := @exists_of_head?_piece before "(" opened
  obtain ⟨closer, _, rfl, closes⟩ := @exists_of_head?_piece after ")" closed
  have left : opener.token.isPunctIn valueOperators = false :=
    not_isPunctIn_of_isPunct opens (by decide)
  have right : closer.token.isPunctIn valueOperators = false :=
    not_isPunctIn_of_isPunct closes (by decide)
  simp [isMixedWithFloat, left, right]

theorem not_limits_of_opened (opened : (before.map piece).head? = some (punct '(')) :
    limitsCounter typing before after = false := by
  obtain ⟨opener, others, rfl, opens⟩ := @exists_of_head?_piece before "(" opened
  simp only [Token.isPunct, Bool.and_eq_true, beq_iff_eq] at opens
  cases others with
  | nil => simp [limitsCounter]
  | cons _ _ => simp [limitsCounter, opens.2, comparisonOperators]

theorem not_plain_of_followed {text : String} (bracket : text = "(" ∨ text = "[")
    (follows : (after.map piece).head? = some ⟨.punct, text.toList⟩)
    (prev : Option Operand) : isPlainUse prev after.head? = false := by
  obtain ⟨bracketToken, _, rfl, opens⟩ := exists_of_head?_piece follows
  simp only [Token.isPunct, Bool.and_eq_true, beq_iff_eq] at opens
  rcases bracket with rfl | rfl <;> simp [isPlainUse, Token.isPunctIn, opens]

/-- Marks of bare integers only, outside the places of integers. -/
def Operand.IsSound (passed : List Lexeme) (operand : Operand) : Prop :=
  operand.isWidened = true → Edit.widen.suits operand.piece = true ∧ ¬HoldsIntegers passed.reverse

theorem coercedText_decided {operand : Operand}
    (sound : operand.IsSound (before.map piece)) (place : LoopPlace) :
    ∃ edit : Edit, coercedText typing before operand after place = edit.text operand.token.text ∧
      edit.Allowed (before.map piece) operand.piece (after.map piece).head? := by
  rw [coercedText]
  split
  next widened => exact ⟨.widen, rfl, sound widened⟩
  · split
    · exact ⟨.keep, rfl, rfl, trivial⟩
    next plain =>
      simp only [Bool.or_eq_true, Bool.not_eq_true', not_or, Bool.not_eq_false] at plain
      obtain ⟨ident, use⟩ := plain
      have noBracket : ∀ text, text = "(" ∨ text = "[" →
          (after.map piece).head? ≠ some ⟨.punct, text.toList⟩ := by
        intro text bracket follows
        rw [not_plain_of_followed bracket follows] at use
        cases use
      split
      next cast =>
        refine ⟨.toFloat, rfl, ident, noBracket "(" (.inl rfl), noBracket "[" (.inr rfl), ?_⟩
        rintro ⟨opened, closed⟩
        rw [not_mixed_of_enclosed opened closed, Bool.and_false] at cast
        cases cast
      · split
        next cast =>
          refine ⟨.toInteger, rfl, ident, noBracket "(" (.inl rfl), noBracket "[" (.inr rfl), ?_⟩
          rintro ⟨opened, -⟩
          rw [not_limits_of_opened opened, Bool.and_false] at cast
          cases cast
        · exact ⟨.keep, rfl, rfl, trivial⟩

/-- Operands behind code whose marks are sound where they stand. -/
def AreSound : List Lexeme → List Operand → Prop
  | _, [] => True
  | passed, operand :: rest => operand.IsSound passed ∧ AreSound (operand.piece :: passed) rest

theorem castFrom_decides {operands : List Operand} {place : LoopPlace}
    (sound : AreSound (before.map Operand.piece) operands) :
    Decides (before.map Operand.piece) (operands.map Operand.token)
      (castFrom typing before place operands) := by
  induction operands generalizing before place with
  | nil => exact .nil
  | cons operand after ih =>
    obtain ⟨edit, text, allowed⟩ := @coercedText_decided after before typing operand sound.1 place
    rw [castFrom, text]
    have later := @ih (operand :: before) (place.advance before.head? operand.token) sound.2
    refine .cons edit ?_ later
    rwa [← head?_map, map_map]

theorem widenFrom_sound (typing : Typing) (before : List Token) (place : Place) (code : List Token)
    (stack : place.frames.map Frame.protectsAll = guards typing before) :
    (widenFrom typing before place code).map Operand.token = code ∧
      AreSound (before.map lexeme) (widenFrom typing before place code) := by
  induction code generalizing before place with
  | nil => exact ⟨rfl, trivial⟩
  | cons token after ih =>
    obtain ⟨tokens, sound⟩ := ih (token :: before) (place.advance typing before token after)
      (guards_advance stack token after)
    refine ⟨by rw [widenFrom, map_cons, tokens], ?_, sound⟩
    intro widened
    simp only [isWidened, Bool.and_eq_true] at widened
    obtain ⟨⟨⟨⟨number, bare⟩, free⟩, -⟩, -⟩ := widened
    refine ⟨?_, ?_⟩
    · simp [Edit.suits, Operand.piece, lexeme, number, bare]
    · intro holds
      rw [← map_reverse] at holds
      grind [mem_guards, reverse_reverse, protectsLiteral_of_guards]

theorem coercedTexts_decides (typing : Typing) (code : List Token) :
    Decides [] code (coercedTexts typing code) := by
  obtain ⟨tokens, sound⟩ := widenFrom_sound typing [] .start code rfl
  have decides := @castFrom_decides [] typing (widen typing code) .start sound
  rwa [widen, tokens] at decides

/-! The text of a round. -/

/-- The text of lexemes in which the code has edits that are allowed. -/
inductive Rewrites : Bool → List Lexeme → List Lexeme → List Char → Prop where
  | nil {onLine : Bool} {passed : List Lexeme} : Rewrites onLine passed [] []
  | other {onLine : Bool} {passed rest : List Lexeme} {piece : Lexeme} {text : List Char}
      (outside : (directiveAfter onLine piece || piece.kind.isTrivia) = true)
      (later : Rewrites (directiveAfter onLine piece) passed rest text) :
      Rewrites onLine passed (piece :: rest) (piece.text ++ text)
  | code {onLine : Bool} {passed rest : List Lexeme} {piece : Lexeme} {text : List Char}
      (inside : (directiveAfter onLine piece || piece.kind.isTrivia) = false) (edit : Edit)
      (allowed : edit.Allowed passed piece (codePieces (directiveAfter onLine piece) rest).head?)
      (later : Rewrites (directiveAfter onLine piece) (piece :: passed) rest text) :
      Rewrites onLine passed (piece :: rest) ((edit.pieces piece).flatMap Lexeme.text ++ text)

theorem codeFrom_outside (outside : onDirective onLine token || token.isTrivia) (pos : Nat)
    (rest : List Token) : codeFrom onLine pos (token :: rest) =
      codeFrom (onDirective onLine token) (pos + 1) rest := by
  rw [codeFrom, if_pos outside]

theorem codeFrom_inside (inside : (onDirective onLine token || token.isTrivia) = false)
    (pos : Nat) (rest : List Token) : codeFrom onLine pos (token :: rest) =
      ⟨pos, token⟩ :: codeFrom (onDirective onLine token) (pos + 1) rest := by
  rw [codeFrom, if_neg (by rw [inside]; decide)]

theorem le_of_mem_codeFrom {placed : Placed} (mem : placed ∈ codeFrom onLine pos tokens) :
    pos ≤ placed.position := by
  induction tokens generalizing onLine pos with
  | nil => cases mem
  | cons token rest ih =>
    rw [codeFrom] at mem
    grind

/-- Edits at later positions leave a token as it is. -/
theorem withTexts_skip {edits : List (Nat × String)} (later : ∀ edit ∈ edits, pos < edit.1)
    (token : Token) (rest : List Token) :
    withTexts pos edits (token :: rest) = token.text :: withTexts (pos + 1) edits rest := by
  cases edits with
  | nil => rfl
  | cons edit others => grind [withTexts]

theorem withTexts_rewrites
    (decides : Decides passed ((codeFrom onLine pos tokens).map Placed.token) texts) :
    Rewrites onLine passed (tokens.map lexeme)
      ((withTexts pos (((codeFrom onLine pos tokens).map Placed.position).zip texts)
        tokens).flatMap String.toList) := by
  induction tokens generalizing onLine pos passed texts with
  | nil => exact .nil
  | cons token rest ih =>
    cases inside : onDirective onLine token || token.isTrivia with
    | true =>
      rw [codeFrom_outside inside] at decides ⊢
      rw [withTexts_skip]
      · exact .other inside (ih decides)
      · intro edit mem
        obtain ⟨placed, found, same⟩ := mem_map.mp (of_mem_zip mem).1
        have atLeast := le_of_mem_codeFrom found
        omega
    | false =>
      rw [codeFrom_inside inside] at decides ⊢
      cases decides with
      | cons edit allowed later =>
        rw [map_cons, map_cons, zip_cons_cons, withTexts, if_pos (beq_self_eq_true pos),
          flatMap_cons, ← Edit.text_pieces]
        rw [← head?_map, map_map] at allowed
        have next : edit.Allowed passed (lexeme token)
            (codePieces (onDirective onLine token) (rest.map lexeme)).head? := by
          rwa [← codeFrom_lexemes _ (pos + 1)]
        exact @Rewrites.code onLine passed _ (lexeme token) _ inside edit next (ih later)

theorem round_rewrites (context source : String) :
    Rewrites false [] (lexemes source.toList) (round context source).toList := by
  have pieces : (Token.lex source).map lexeme = lexemes source.toList := by
    rw [lex_eq_place, lexeme_place]
  rw [round, String.toList_join]
  exact withTexts_rewrites (coercedTexts_decides _ _)

/-! Growth. -/

theorem Edit.length_pieces (edit : Edit) (piece : Lexeme) :
    (edit.pieces piece).flatMap Lexeme.text = piece.text ∨
      piece.text.length < ((edit.pieces piece).flatMap Lexeme.text).length := by
  cases edit with
  | keep => exact .inl (append_nil _)
  | widen => exact .inr (by simp [Edit.pieces])
  | toFloat | toInteger =>
    simp [Edit.pieces, Edit.call]
    omega

theorem Rewrites.grows {pieces : List Lexeme} {text : List Char}
    (rewrites : Rewrites onLine passed pieces text) :
    text = pieces.flatMap Lexeme.text ∨ (pieces.flatMap Lexeme.text).length < text.length := by
  induction rewrites with
  | nil => exact .inl rfl
  | other outside later ih => grind
  | @code _ _ rest piece text inside edit allowed later ih =>
    rcases edit.length_pieces piece with kept | grown
    · grind
    grind

/-- A round leaves a source as it is or makes it longer. -/
theorem round_grows (context source : String) :
    round context source = source ∨ source.length < (round context source).length := by
  have grows := (round_rewrites context source).grows
  rw [(splits_lexemes source.toList).text_eq] at grows
  exact grows.imp_left String.toList_injective

/-! Rounds over edited sources. -/

/-- Whether the items of a source are marked as code where they are, from a place on. -/
def Marked (onLine : Bool) : List Item → Prop
  | [] => True
  | item :: rest =>
    item.isCode = !(directiveAfter onLine item.piece || item.piece.kind.isTrivia) ∧
      Marked (directiveAfter onLine item.piece) rest

/-- What one round makes of an item: an edited item stays, and another one may be edited. -/
def Item.Advances (item later : Item) : Prop :=
  later.piece = item.piece ∧ later.isCode = item.isCode ∧
    (later.edit = item.edit ∨ (item.edit = .keep ∧ later.fits = true))

theorem Item.Advances.refl (item : Item) : item.Advances item :=
  ⟨rfl, rfl, .inl rfl⟩

theorem Item.Advances.fits {item later : Item} (advances : item.Advances later)
    (fits : item.fits) : later.fits := by
  obtain ⟨piece, isCode, same | ⟨-, edited⟩⟩ := advances
  · rwa [Item.fits, same, isCode, piece]
  · exact edited

def Item.code (item : Item) : List Lexeme :=
  if item.isCode then item.pieces else []

/-- What one round makes of items behind code: an item stays, or gets an edit that is allowed. -/
inductive Steps : List Lexeme → List Item → List Item → Prop where
  | nil {passed : List Lexeme} : Steps passed [] []
  | cons {passed : List Lexeme} {item later : Item} {rest laters : List Item}
      (advances : item.Advances later)
      (decided : later = item ∨ later.edit.Allowed passed item.piece (rest.flatMap Item.code).head?)
      (others : Steps (item.code.reverse ++ passed) rest laters) :
      Steps passed (item :: rest) (later :: laters)

theorem Steps.advances {laters : List Item} (steps : Steps passed items laters) :
    List.Forall₂ Item.Advances items laters := by
  induction steps with
  | nil => exact .nil
  | cons advances _ _ ih => exact .cons advances ih

section Items

variable {onLine : Bool} {passed others : List Lexeme} {piece : Lexeme} {text : List Char}

theorem Rewrites.outside_inv (rewrites : Rewrites onLine passed (piece :: others) text)
    (outside : (directiveAfter onLine piece || piece.kind.isTrivia)) :
    ∃ n, text = piece.text ++ n ∧ Rewrites (directiveAfter onLine piece) passed others n := by
  cases rewrites with
  | other _ later => exact ⟨_, rfl, later⟩
  | code inside _ _ _ =>
    rw [outside] at inside
    cases inside

theorem Rewrites.inside_inv (rewrites : Rewrites onLine passed (piece :: others) text)
    (inside : (directiveAfter onLine piece || piece.kind.isTrivia) = false) :
    ∃ (edit : Edit) (n : List Char), text = (edit.pieces piece).flatMap Lexeme.text ++ n ∧
      edit.Allowed passed piece (codePieces (directiveAfter onLine piece) others).head? ∧
      Rewrites (directiveAfter onLine piece) (piece :: passed) others n := by
  cases rewrites with
  | other outside _ =>
    rw [inside] at outside
    cases outside
  | code _ edit allowed later => exact ⟨edit, _, rfl, allowed, later⟩

/-- A piece that no edit suits where it stands is kept. -/
theorem Rewrites.kept (rewrites : Rewrites onLine passed (piece :: others) text)
    (inside : (directiveAfter onLine piece || piece.kind.isTrivia) = false)
    (only : ∀ edit : Edit,
      edit.Allowed passed piece (codePieces (directiveAfter onLine piece) others).head? →
        edit = .keep) :
    ∃ n, text = piece.text ++ n ∧
      Rewrites (directiveAfter onLine piece) (piece :: passed) others n := by
  obtain ⟨edit, n, shape, allowed, later⟩ := rewrites.inside_inv inside
  grind [Edit.pieces]

theorem Edit.eq_keep_of_punct (allowed : edit.Allowed passed piece next)
    (punct : piece.kind = .punct) : edit = .keep := by
  have suits := allowed.1
  cases edit <;> simp [Edit.suits, punct] at suits ⊢

theorem Edit.eq_keep_of_number (allowed : edit.Allowed passed piece next)
    (number : piece.kind = .number) (notBare : isBareInteger (String.ofList piece.text) = false) :
    edit = .keep := by
  have suits := allowed.1
  cases edit <;> simp [Edit.suits, number, notBare] at suits ⊢

/-- A name in front of an opening bracket or alone in parentheses stays. -/
theorem Edit.eq_keep_of_ident (allowed : edit.Allowed passed piece next)
    (ident : piece.kind = .ident)
    (bound : next = some (punct '(') ∨ next = some (punct '[') ∨
      (passed.head? = some (punct '(') ∧ next = some (punct ')'))) : edit = .keep := by
  cases edit with
  | keep => rfl
  | widen => simp [Edit.Allowed, Edit.suits, ident] at allowed
  | toFloat | toInteger =>
    obtain ⟨-, uncalled, unindexed, free⟩ := allowed
    grind

/-- A number with a fraction is no bare integer. -/
theorem isBareInteger_widened (digits : List Char) :
    isBareInteger (String.ofList (digits ++ ['.', '0'])) = false := by
  apply Bool.eq_false_iff.mpr
  intro bare
  have areDigits := (digits_of_isBareInteger bare).2
  exact absurd (areDigits '.' (by simp)) (by decide)

/-- The pieces that an edit has made are all kept. -/
theorem Rewrites.edited {edit : Edit} (suits : edit.suits piece) (isEdited : edit ≠ .keep)
    (rewrites : Rewrites false passed (edit.pieces piece ++ others) text) :
    ∃ n, text = (edit.pieces piece).flatMap Lexeme.text ++ n ∧
      Rewrites false ((edit.pieces piece).reverse ++ passed) others n := by
  obtain ⟨kind, chars⟩ := piece
  cases edit with
  | keep => exact absurd rfl isEdited
  | widen =>
    simp only [Edit.suits, Bool.and_eq_true, beq_iff_eq] at suits
    obtain ⟨rfl, -⟩ := suits
    obtain ⟨n, rfl, later⟩ := rewrites.kept rfl fun edit allowed =>
      Edit.eq_keep_of_number allowed rfl (isBareInteger_widened chars)
    exact ⟨n, by simp [Edit.pieces], later⟩
  | toFloat | toInteger =>
    simp only [Edit.suits, beq_iff_eq] at suits
    obtain rfl := suits
    obtain ⟨_, rfl, atOpening⟩ := rewrites.kept rfl fun edit allowed =>
      Edit.eq_keep_of_ident allowed rfl (.inl rfl)
    obtain ⟨_, rfl, atArgument⟩ := atOpening.kept rfl fun edit allowed =>
      Edit.eq_keep_of_punct allowed rfl
    obtain ⟨_, rfl, atClosing⟩ := atArgument.kept rfl fun edit allowed =>
      Edit.eq_keep_of_ident allowed rfl (.inr (.inr ⟨rfl, rfl⟩))
    obtain ⟨n, rfl, later⟩ := atClosing.kept rfl fun edit allowed =>
      Edit.eq_keep_of_punct allowed rfl
    exact ⟨n, by simp [Edit.pieces, Edit.call], later⟩

section Marked

variable {item : Item}
  (marked : item.isCode = !(directiveAfter onLine item.piece || item.piece.kind.isTrivia))
  (fits : item.fits = true)

include marked fits

/-- Names and numbers start no directive, so an edited item stands on no directive line. -/
theorem Item.state_of_edited (isEdited : item.edit ≠ .keep) :
    onLine = false ∧ item.isCode ∧ directiveAfter onLine item.piece = false := by
  obtain ⟨isCode, suits⟩ : item.isCode ∧ item.edit.suits item.piece := by
    simpa [Item.fits, isEdited] using fits
  have kind : item.piece.kind = .number ∨ item.piece.kind = .ident := by
    cases shape : item.edit <;> simp_all [Edit.suits]
  have outside : directiveAfter onLine item.piece = false := by
    simp_all
  refine ⟨?_, isCode, outside⟩
  rcases kind with kind | kind <;> rwa [directiveAfter, kind] at outside

theorem Item.codePieces_pieces : codePieces onLine item.pieces = item.code ∧
    item.pieces.foldl directiveAfter onLine = directiveAfter onLine item.piece := by
  obtain ⟨⟨kind, chars⟩, isCode, edit⟩ := item
  dsimp only at marked
  cases edit with
  | keep =>
    simp only [Item.code, Item.pieces, Edit.pieces, codePieces]
    grind
  | widen =>
    obtain ⟨rfl, code, -⟩ := Item.state_of_edited marked fits Edit.noConfusion
    obtain ⟨rfl, -⟩ : kind = .number ∧ _ := by
      simpa [Edit.suits] using Item.suits_of_fits fits
    rw [Item.code, code]
    exact ⟨rfl, rfl⟩
  | toFloat | toInteger =>
    obtain ⟨rfl, code, -⟩ := Item.state_of_edited marked fits Edit.noConfusion
    obtain rfl : kind = .ident := by simpa [Edit.suits] using Item.suits_of_fits fits
    rw [Item.code, code]
    exact ⟨rfl, rfl⟩

/-- What a round makes of an item of the code, or outside it. -/
theorem Item.step (rewrites : Rewrites onLine passed (item.pieces ++ others) text) :
    ∃ (later : Item) (remaining : List Char), item.Advances later ∧
      (later = item ∨ later.edit.Allowed passed item.piece
        (codePieces (directiveAfter onLine item.piece) others).head?) ∧
      text = later.pieces.flatMap Lexeme.text ++ remaining ∧
      Rewrites (directiveAfter onLine item.piece) (item.code.reverse ++ passed) others
        remaining := by
  by_cases isEdited : item.edit = .keep
  · obtain ⟨piece, isCode, edit⟩ := item
    obtain rfl : edit = .keep := isEdited
    dsimp only at marked
    cases inside : directiveAfter onLine piece || piece.kind.isTrivia with
    | true =>
      rw [inside] at marked
      obtain ⟨remaining, rfl, later⟩ := rewrites.outside_inv inside
      refine ⟨_, remaining, .refl _, .inl rfl, by simp [Item.pieces, Edit.pieces], ?_⟩
      rw [marked]
      exact later
    | false =>
      rw [inside] at marked
      obtain ⟨edit, remaining, rfl, allowed, later⟩ := rewrites.inside_inv inside
      refine ⟨⟨piece, isCode, edit⟩, remaining, ⟨rfl, rfl, .inr ⟨rfl, ?_⟩⟩, .inr allowed, rfl, ?_⟩
      · simp [Item.fits, marked, allowed.1]
      · rw [marked]
        exact later
  · obtain ⟨rfl, isCode, outside⟩ := Item.state_of_edited marked fits isEdited
    obtain ⟨remaining, shape, later⟩ := Rewrites.edited (Item.suits_of_fits fits) isEdited rewrites
    refine ⟨item, remaining, .refl item, .inl rfl, shape, ?_⟩
    rw [outside, Item.code, isCode]
    exact later

end Marked

theorem codePieces_editedPieces (marked : Marked onLine items) (fits : ∀ item ∈ items, item.fits) :
    codePieces onLine (editedPieces items) = items.flatMap Item.code := by
  induction items generalizing onLine with
  | nil => rfl
  | cons item rest ih =>
    obtain ⟨code, state⟩ := Item.codePieces_pieces marked.1 (fits item mem_cons_self)
    rw [editedPieces, flatMap_cons, codePieces_append, code, state]
    exact congrArg (item.code ++ ·) (ih marked.2 (forall_mem_cons.mp fits).2)

theorem items_step (marked : Marked onLine items) (fits : ∀ item ∈ items, item.fits)
    (rewrites : Rewrites onLine passed (editedPieces items) text) :
    ∃ later, Steps passed items later ∧ text = editedText later := by
  induction items generalizing onLine passed text with
  | nil =>
    cases rewrites
    exact ⟨[], .nil, rfl⟩
  | cons item rest ih =>
    have fitsRest : ∀ other ∈ rest, other.fits := (forall_mem_cons.mp fits).2
    obtain ⟨first, n, advances, decided, shape, further⟩ :=
      Item.step marked.1 (fits item mem_cons_self) rewrites
    obtain ⟨later, steps, text⟩ := ih marked.2 fitsRest further
    refine ⟨first :: later, .cons advances ?_ steps, ?_⟩
    · rwa [← codePieces_editedPieces marked.2 fitsRest]
    · rw [shape, text, editedText_cons]

end Items

/-- One round over an edited source edits more items, and none that has been edited. -/
theorem round_steps (context : String) {source : String} (marked : Marked false items)
    (fits : ∀ item ∈ items, item.fits) (splits : Splits source.toList (editedPieces items)) :
    ∃ later, Steps [] items later ∧ (round context source).toList = editedText later := by
  have rewrites := round_rewrites context source
  rw [splits.lexemes_eq] at rewrites
  exact items_step marked fits rewrites

end WebShader.Coercion
