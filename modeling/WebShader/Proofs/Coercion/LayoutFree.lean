import WebShader.Proofs.Coercion.Descent

/-!
Contract: coercion does not look at layout.

Owns: that every decision about code is the same wherever its tokens are placed,
and that what a round leaves of code depends on that code alone.

A round asks kinds and texts of code tokens only. The texts that it puts in their
place split alone, because no number touches a name, so two sources of the same
code stay so round after round.
-/

namespace WebShader.Coercion

open List Token

variable {typing : Typing} {place : Place} {loop : LoopPlace} {depth : Nat} {token : Token}
  {after before tokens : List Token} {operand : Operand} {operands others : List Operand}

def bare (token : Token) : Token :=
  { token with start := 0 }

/-! Types. -/

theorem isIntegerParameter_bare :
    isIntegerParameter (tokens.map bare) = isIntegerParameter tokens := by
  rw [isIntegerParameter, isIntegerParameter, find?_map]
  exact Option.casesOn (tokens.find? _) rfl fun _ => rfl

theorem integerParameters_bare (depth : Nat) (current tokens : List Token) :
    integerParameters depth (current.map bare) (tokens.map bare) =
      integerParameters depth current tokens := by
  induction tokens generalizing depth current with
  | nil =>
    simp only [integerParameters, map_nil, lastParameter, isEmpty_map, isIntegerParameter_bare]
  | cons token rest ih =>
    have longer : current.map bare ++ [bare token] = (current ++ [token]).map bare := by simp
    have first := ih depth []
    rw [map_nil] at first
    simp only [map_cons, integerParameters, longer, ih, first, lastParameter, isEmpty_map,
      isIntegerParameter_bare]
    rfl

theorem moreDeclarators_bare :
    moreDeclarators depth (tokens.map bare) = moreDeclarators depth tokens := by
  induction tokens generalizing depth with
  | nil => rfl
  | cons token rest ih =>
    cases rest with
    | nil => rfl
    | cons name more =>
      rw [map_cons] at ih ⊢
      simp only [map_cons, moreDeclarators.eq_2 _ (bare token), ih]
      rfl

theorem followsUniform_bare : followsUniform (tokens.map bare) = followsUniform tokens := by
  rw [followsUniform, dropWhile_map, head?_map, Option.any_map]
  rfl

theorem declaredAt?_bare : declaredAt? (before.map bare) (bare token) (after.map bare) =
    declaredAt? before token after := by
  have type : NumberKind.ofType? (bare token).text = NumberKind.ofType? token.text := rfl
  unfold declaredAt?
  rw [type]
  cases NumberKind.ofType? token.text with
  | none => rfl
  | some kind =>
    cases after with
    | nil => rfl
    | cons name rest =>
      have params := integerParameters_bare 1 [] (rest.drop 1)
      rw [map_drop, map_nil] at params
      simp only [map_cons, params, head?_map, Option.any_map, moreDeclarators_bare,
        followsUniform_bare]
      rfl

theorem declaredFrom_bare (before tokens : List Token) :
    declaredFrom (before.map bare) (tokens.map bare) = declaredFrom before tokens := by
  induction tokens generalizing before with
  | nil => rfl
  | cons token rest ih =>
    rw [map_cons, declaredFrom, declaredFrom, declaredAt?_bare, ← map_cons, ih]

theorem ofCode_bare (code : List Token) : Typing.ofCode (code.map bare) = Typing.ofCode code :=
  congrArg (fun declared => Typing.preferIntegers (foldl Typing.add _ declared))
    (declaredFrom_bare [] code)

/-! Operands. -/

theorem beforeOpening?_bare :
    beforeOpening? depth (tokens.map bare) = (beforeOpening? depth tokens).map (map bare) := by
  induction tokens generalizing depth with
  | nil => rfl
  | cons token rest ih =>
    simp only [map_cons, beforeOpening?, ih, apply_ite (Option.map (map bare))]
    rfl

theorem ownerOfBrackets?_bare (tokens : List Token) :
    ownerOfBrackets? (tokens.map bare) = (ownerOfBrackets? tokens).map bare := by
  rw [ownerOfBrackets?, beforeOpening?_bare, ownerOfBrackets?]
  cases beforeOpening? 0 tokens with
  | none => rfl
  | some rest => exact head?_map

theorem endsInteger_bare :
    endsInteger typing (tokens.map bare) = endsInteger typing tokens := by
  cases tokens with
  | nil => rfl
  | cons token before =>
    have owner := ownerOfBrackets?_bare (token :: before)
    rw [map_cons] at owner ⊢
    simp only [endsInteger, owner, Option.any_map]
    rcases before with _ | ⟨_, _ | ⟨_, _⟩⟩ <;> rfl

theorem startsInteger_bare :
    startsInteger typing (tokens.map bare) = startsInteger typing tokens := by
  induction tokens with
  | nil => rfl
  | cons token rest ih =>
    simp only [map_cons, startsInteger, ih, head?_map, Option.any_map]
    rfl

def Operand.bare (operand : Operand) : Operand :=
  { operand with token := Coercion.bare operand.token }

theorem endsFloat_bare :
    endsFloat typing (operands.map Operand.bare) = endsFloat typing operands := by
  cases operands with
  | nil => rfl
  | cons operand before =>
    have tokens : (before.map Operand.bare).map Operand.token =
        (before.map Operand.token).map Coercion.bare := by
      rw [map_map, map_map]
      rfl
    have owner := ownerOfBrackets?_bare (operand.token :: before.map Operand.token)
    rw [map_cons, ← tokens] at owner
    simp only [map_cons, endsFloat, Operand.bare, owner, Option.any_map]
    rcases before with _ | ⟨_, _ | ⟨_, _⟩⟩ <;> rfl

theorem startsFloat_bare :
    startsFloat typing (operands.map Operand.bare) = startsFloat typing operands := by
  induction operands with
  | nil => rfl
  | cons operand rest ih =>
    simp only [map_cons, startsFloat, ih, head?_map, Option.any_map]
    rfl

/-! Literals. -/

theorem ownerOfSubscript?_bare :
    ownerOfSubscript? depth (tokens.map bare) = ownerOfSubscript? depth tokens := by
  induction tokens generalizing depth with
  | nil => rfl
  | cons token rest ih =>
    simp only [map_cons, ownerOfSubscript?, ih, head?_map, Option.filter_map, Option.map_map]
    rfl

theorem parenthesisFrame_bare :
    parenthesisFrame typing (before.map bare) = parenthesisFrame typing before := by
  have callee : callee? (before.map bare) = callee? before := by
    cases before with
    | nil => rfl
    | cons token rest =>
      have owner := @ownerOfSubscript?_bare 0 (token :: rest)
      simp only [callee?, owner]
      rfl
  rw [parenthesisFrame, callee, parenthesisFrame]

theorem ownerOfParentheses?_bare :
    ownerOfParentheses? depth (tokens.map bare) = (ownerOfParentheses? depth tokens).map bare := by
  induction tokens generalizing depth with
  | nil => rfl
  | cons token rest ih =>
    simp only [map_cons, ownerOfParentheses?, ih, head?_map, apply_ite (Option.map bare)]
    rfl

theorem advance_bare :
    place.advance typing (before.map bare) (bare token) (after.map bare) =
      place.advance typing before token after := by
  have opens : opensIntegerFunction typing (before.map bare) =
      opensIntegerFunction typing before := by
    rw [opensIntegerFunction, ownerOfParentheses?_bare, head?_map, Option.any_map, Option.any_map]
    rfl
  have starts : Place.startsDeclaration (after.map bare) = Place.startsDeclaration after := by
    rcases after with _ | ⟨_, _ | ⟨_, _⟩⟩ <;> rfl
  simp only [Place.advance, Place.afterPunct, Place.afterIdent, Place.openBrace, opens, starts,
    parenthesisFrame_bare]
  rfl

theorem isWidened_bare :
    isWidened typing (before.map bare) (bare token) (after.map bare) place =
      isWidened typing before token after place := by
  have unsigned : withoutSign (before.map bare) = (withoutSign before).map bare := by
    rcases before with _ | ⟨sign, others⟩
    · rfl
    · simp only [map_cons, withoutSign, head?_map, Option.all_map, apply_ite (map bare)]
      rfl
  have left : integerOnLeft typing (before.map bare) = integerOnLeft typing before := by
    rw [integerOnLeft, unsigned, integerOnLeft]
    cases withoutSign before with
    | nil => rfl
    | cons operator others => simp only [map_cons, endsInteger_bare]; rfl
  have right : integerOnRight typing (after.map bare) = integerOnRight typing after := by
    cases after with
    | nil => rfl
    | cons operator others => simp only [map_cons, integerOnRight, startsInteger_bare]; rfl
  rw [isWidened, left, right]
  rfl

theorem widenFrom_bare (before : List Token) (place : Place) (code : List Token) :
    widenFrom typing (before.map bare) place (code.map bare) =
      (widenFrom typing before place code).map Operand.bare := by
  induction code generalizing before place with
  | nil => rfl
  | cons token after ih =>
    rw [map_cons, widenFrom, widenFrom, isWidened_bare, advance_bare, ← map_cons, ih]
    rfl

/-! Texts. -/

theorem coercedText_bare :
    coercedText typing (others.map Operand.bare) operand.bare (operands.map Operand.bare) loop =
      coercedText typing others operand operands loop := by
  have mixed : isMixedWithFloat typing (others.map Operand.bare) (operands.map Operand.bare) =
      isMixedWithFloat typing others operands := by
    cases others <;> cases operands <;>
      simp only [isMixedWithFloat, map_cons, endsFloat_bare, startsFloat_bare] <;> rfl
  have limits : limitsCounter typing (others.map Operand.bare) (operands.map Operand.bare) =
      limitsCounter typing others operands := by
    rcases others with _ | ⟨_, _ | ⟨_, _⟩⟩ <;> rcases operands with _ | _ <;> rfl
  have plain : isPlainUse (others.map Operand.bare).head? (operands.map Operand.bare).head? =
      isPlainUse others.head? operands.head? := by
    rcases others with _ | _ <;> rcases operands with _ | _ <;> rfl
  rw [coercedText, mixed, limits, plain]
  rfl

theorem castFrom_bare (before : List Operand) (place : LoopPlace) (operands : List Operand) :
    castFrom typing (before.map Operand.bare) place (operands.map Operand.bare) =
      castFrom typing before place operands := by
  induction operands generalizing before place with
  | nil => rfl
  | cons operand after ih =>
    have moved : place.advance (before.map Operand.bare).head? operand.bare.token =
        place.advance before.head? operand.token := by
      cases before <;> rfl
    rw [map_cons, castFrom, castFrom, coercedText_bare, moved, ← map_cons, ih]

/-- What becomes of code depends on the kinds and the texts of its tokens only. -/
theorem coercedTexts_bare (code : List Token) :
    coercedTexts typing (code.map bare) = coercedTexts typing code := by
  have widened := @widenFrom_bare typing [] .start code
  have cast := @castFrom_bare typing [] .start (widen typing code)
  rwa [widen, ← widened] at cast

/-! Rounds. -/

/-- New texts for code split into what they would split into alone. -/
theorem withTexts_relexed {onLine : Bool} {pos : Nat} {passed : List Lexeme}
    {texts : List String} {text : List Char} (splits : Splits text (tokens.map lexeme))
    (apart : numbersApart (tokens.map lexeme))
    (decides : Decides passed ((codeFrom onLine pos tokens).map Placed.token) texts) :
    ∃ pieces, Relexed text ((withTexts pos
        (((codeFrom onLine pos tokens).map Placed.position).zip texts) tokens).flatMap
          String.toList) pieces ∧
      codePieces onLine pieces = texts.flatMap fun text => lexemes text.toList := by
  induction tokens generalizing onLine pos passed texts text with
  | nil =>
    cases splits
    cases decides
    exact ⟨[], relexed_nil, rfl⟩
  | cons token rest ih =>
    obtain ⟨behind, rfl, leads, restSplits⟩ := splits.cons_inv
    obtain ⟨numberApart, restApart⟩ := restSplits.numbersApart_cons.mp apart
    cases inside : onDirective onLine token || token.isTrivia with
    | true =>
      rw [codeFrom_outside inside] at decides ⊢
      obtain ⟨pieces, relexed, same⟩ := ih restSplits restApart decides
      refine ⟨lexeme token :: pieces, ?_, ?_⟩
      · rw [withTexts_skip]
        · exact relexed.keep leads numberApart
        · intro edit mem
          obtain ⟨placed, found, same⟩ := mem_map.mp (of_mem_zip mem).1
          have atLeast := le_of_mem_codeFrom found
          omega
      · exact (if_pos inside).trans same
    | false =>
      rw [codeFrom_inside inside] at decides ⊢
      cases decides with
      | cons edit allowed later =>
        obtain ⟨pieces, relexed, same⟩ := ih restSplits restApart later
        refine ⟨edit.pieces (lexeme token) ++ pieces, ?_, ?_⟩
        · rw [map_cons, zip_cons_cons, withTexts, if_pos (beq_self_eq_true pos), flatMap_cons,
            ← Edit.text_pieces]
          exact relexed_edit leads relexed numberApart allowed.1
        · have fits : Item.fits ⟨lexeme token, true, edit⟩ := by simp [Item.fits, allowed.1]
          obtain ⟨code, state⟩ := Item.codePieces_pieces (congrArg Bool.not inside).symm fits
          have alone := (relexed_edit (by rw [append_nil]; exact frontToken_alone leads) relexed_nil
            (fun _ => rfl) allowed.1).splits.lexemes_eq
          rw [append_nil, append_nil, Edit.text_pieces] at alone
          rw [flatMap_cons, alone, ← same, codePieces_append]
          exact congr (congrArg _ code) (congrArg (codePieces · pieces) state)

/-- The code that a round leaves is put together from the new texts. -/
theorem round_codeOf (context : String) {source : String}
    (apart : numbersApart (lexemes source.toList)) :
    numbersApart (lexemes (round context source).toList) ∧
      codeOf (round context source) = (coercedTexts (typingIn context
        ((code (lex source)).map Placed.token)) ((code (lex source)).map Placed.token)).flatMap
          fun text => lexemes text.toList := by
  have pieces : (lex source).map lexeme = lexemes source.toList := by rw [lex_eq_place, lexeme_place]
  have splits := splits_lexemes source.toList
  obtain ⟨edited, relexed, same⟩ := withTexts_relexed splits apart (coercedTexts_decides
    (typingIn context ((code (lex source)).map Placed.token)) ((code (lex source)).map Placed.token))
  rw [codeOf_eq, ← same, round, String.toList_join]
  exact ⟨relexed.splits.lexemes_eq ▸ relexed.apart,
    congrArg (codePieces false) relexed.splits.lexemes_eq⟩

/-- Sources with the same code have the same code after each number of rounds. -/
theorem iterate_codeOf (context : String) (count : Nat) {first second : String}
    (apart : numbersApart (lexemes first.toList)) (alsoApart : numbersApart (lexemes second.toList))
    (same : codeOf first = codeOf second) :
    codeOf ((round context)^[count] first) = codeOf ((round context)^[count] second) := by
  induction count generalizing first second with
  | zero => exact same
  | succ count ih =>
    have tokens : ((code (lex first)).map Placed.token).map bare =
        ((code (lex second)).map Placed.token).map bare := by
      have placeless (source : String) : ((code (lex source)).map Placed.token).map bare =
          (codeOf source).map fun piece => ⟨piece.kind, String.ofList piece.text, 0⟩ := by
        rw [codeOf, map_map, map_map]
        exact map_congr_left fun placed _ => by simp [bare, lexeme]
      rw [placeless, placeless, same]
    have typing : typingIn context ((code (lex first)).map Placed.token) =
        typingIn context ((code (lex second)).map Placed.token) := by
      rw [typingIn, ← ofCode_bare, tokens, ofCode_bare, typingIn]
    obtain ⟨firstApart, firstCode⟩ := round_codeOf context apart
    obtain ⟨secondApart, secondCode⟩ := round_codeOf context alsoApart
    refine ih firstApart secondApart ?_
    rw [firstCode, secondCode, typing, ← coercedTexts_bare, tokens, coercedTexts_bare]

/-- Coercion does not look at layout: sources of the same code, whatever trivia and directives
stand between its tokens, have the same code when they are coerced. -/
theorem coerce_codeOf (context : String) {first second : String}
    (apart : numbersApart (lexemes first.toList) = true)
    (alsoApart : numbersApart (lexemes second.toList) = true)
    (same : codeOf first = codeOf second) :
    codeOf (coerce context first).value = codeOf (coerce context second).value := by
  grind [coerce_value, iterate_codeOf]

theorem coerce_codeOf_spread :
    numbersApart (lexemes "uniform int A;x=1.5+A+2;".toList) = true ∧
      (coerce "" "uniform int A ;/*2*/x=1.5\n#define A 2\n+A+2;").value =
        "uniform int A ;/*2*/x=1.5\n#define A 2\n+float(A)+2.0;" ∧
      codeOf (coerce "" "uniform int A;x=1.5+A+2;").value =
        codeOf (coerce "" "uniform int A ;/*2*/x=1.5\n#define A 2\n+A+2;").value :=
  ⟨by decide +kernel, by decide +kernel,
    coerce_codeOf "" (by decide +kernel) (by decide +kernel) (by decide +kernel)⟩

end WebShader.Coercion
