import WebShader.Lowering.Stage
import WebShader.Proofs.Sharing.Mention

/-!
Contract: what is left of member accesses after they are made flat.

Owns: accesses to block members on one line, the change from a list of lexemes
to the one with flat names in their place, and that the changed lexemes are
those of the new text and hold no such access.

An access that a line end interrupts is none here. Of several blocks with one
name only the last counts.
-/

namespace WebShader.Lowering

open List Token
open Sharing

variable {binding : Binding} {selects : Bool} {context : Context} {after pieces : List Lexeme}
  {rest : List Token} {member name : String} {token : Token}
  {tokens : List Token} {text : List Char} {flattened : List Lexeme} {piece : Lexeme}

/-! Accesses. -/

/-- Blanks and comments, but no line end. -/
def isInline (piece : Lexeme) : Bool :=
  piece.kind == .whitespace || piece.kind == .comment

def point : Lexeme :=
  ⟨.punct, ['.']⟩

/-- An access on one line to a member of the block that a name stands for, with what
follows it. -/
inductive AccessAhead (context : Context) : List Lexeme → String → List Lexeme → Prop
  | intro {name : String} {binding : Binding} {member : String} {gap innerGap rest : List Lexeme}
      (block : context.blockNamed? name = some binding) (found : member ∈ binding.memberNames)
      (inline : ∀ piece ∈ gap, isInline piece = true)
      (innerInline : ∀ piece ∈ innerGap, isInline piece = true) :
      AccessAhead context (⟨.ident, name.toList⟩ ::
          (gap ++ point :: (innerGap ++ ⟨.ident, member.toList⟩ :: rest))) member rest

/-- Puts flat names in the place of accesses, from the left. -/
inductive Flattens (context : Context) : Bool → List Lexeme → List Lexeme → Prop
  | nil {selects : Bool} : Flattens context selects [] []
  | access {pieces rest flattened : List Lexeme} {member : String}
      (ahead : AccessAhead context pieces member rest)
      (others : Flattens context false rest flattened) :
      Flattens context false pieces (⟨.ident, (context.flatName member).toList⟩ :: flattened)
  | keep {selects : Bool} {piece : Lexeme} {rest flattened : List Lexeme}
      (none : selects = false → ∀ member after, ¬AccessAhead context (piece :: rest) member after)
      (others : Flattens context (selectsAfter selects [piece]) rest flattened) :
      Flattens context selects (piece :: rest) (piece :: flattened)

/-! The pass performs the change. -/

theorem nextOnLine?_eq_some (found : nextOnLine? tokens = some (token, rest)) :
    ∃ gap, tokens = gap ++ token :: rest ∧ ∀ other ∈ gap, isInline (lexeme other) := by
  induction tokens with
  | nil => cases found
  | cons first others ih =>
    have skip (inline : isInline (lexeme first)) (later : nextOnLine? others = some (token, rest)) :
        ∃ gap, first :: others = gap ++ token :: rest ∧ ∀ other ∈ gap, isInline (lexeme other) := by
      obtain ⟨gap, rfl, inlineGap⟩ := ih later
      exact ⟨first :: gap, rfl, forall_mem_cons.mpr ⟨inline, inlineGap⟩⟩
    rw [nextOnLine?] at found
    split at found
    next kind => exact skip (by simp [isInline, lexeme, kind]) found
    next kind => exact skip (by simp [isInline, lexeme, kind]) found
    · cases found
    · cases found
      exact ⟨[], rfl, by simp⟩

theorem nextOnLine?_append {gap : List Token}
    (inline : ∀ other ∈ gap, isInline (lexeme other)) (code : token.isTrivia = false) :
    nextOnLine? (gap ++ token :: rest) = some (token, rest) := by
  induction gap with
  | nil =>
    rw [nil_append, nextOnLine?]
    split
    next kind => simp [Token.isTrivia, kind, TokenKind.isTrivia] at code
    next kind => simp [Token.isTrivia, kind, TokenKind.isTrivia] at code
    next kind => simp [Token.isTrivia, kind, TokenKind.isTrivia] at code
    · rfl
  | cons first others ih =>
    obtain ⟨here, later⟩ := forall_mem_cons.mp inline
    simp only [isInline, lexeme] at here
    rw [cons_append, nextOnLine?]
    grind

theorem memberAccess?_eq_some {member : Token}
    (found : memberAccess? tokens = some (member, rest)) :
    ∃ gap dot innerGap, tokens = gap ++ dot :: (innerGap ++ member :: rest) ∧
      (∀ other ∈ gap, isInline (lexeme other)) ∧
      (∀ other ∈ innerGap, isInline (lexeme other)) ∧
      dot.isPunct "." ∧ member.isIdent := by
  rw [memberAccess?] at found
  split at found
  · cases found
  next dot afterDot first =>
    split at found
    · cases found
    next second =>
      split at found
      next shape =>
        obtain ⟨gap, rfl, inline⟩ := nextOnLine?_eq_some first
        obtain ⟨innerGap, rfl, innerInline⟩ := nextOnLine?_eq_some second
        grind
      · cases found

theorem lexeme_of_isPunct (dot : token.isPunct ".") : lexeme token = point := by
  simp only [Token.isPunct, Bool.and_eq_true, beq_iff_eq] at dot
  rw [lexeme, dot.1, dot.2]
  rfl

theorem lexeme_of_isIdent (ident : token.isIdent) : lexeme token = ⟨.ident, token.text.toList⟩ := by
  rw [lexeme, beq_iff_eq.mp ident]

theorem isPunct_of_lexeme (same : lexeme token = point) : token.isPunct "." := by
  rw [← isPoint_lexeme, same]
  rfl

theorem isIdent_of_lexeme (same : lexeme token = ⟨.ident, name.toList⟩) :
    token.isIdent ∧ token.text = name := by
  obtain ⟨kind, text⟩ := Lexeme.mk.inj same
  exact ⟨by rw [Token.isIdent, kind]; rfl, String.toList_inj.mp text⟩

section Pass

variable {context : Context} {token : Token} {rest : List Token}

theorem accessAhead_of_memberAccess? {member : Token} {after : List Token}
    (ident : token.isIdent) (block : context.blockNamed? token.text = some binding)
    (access : memberAccess? rest = some (member, after)) (found : member.text ∈ binding.memberNames) :
    AccessAhead context ((token :: rest).map lexeme) member.text (after.map lexeme) := by
  obtain ⟨gap, dot, innerGap, rfl, inline, innerInline, isDot, isMember⟩ :=
    memberAccess?_eq_some access
  have shape : (token :: (gap ++ dot :: (innerGap ++ member :: after))).map lexeme =
      ⟨.ident, token.text.toList⟩ :: (gap.map lexeme ++ point ::
        (innerGap.map lexeme ++ ⟨.ident, member.text.toList⟩ :: after.map lexeme)) := by
    simp only [map_cons, map_append, lexeme_of_isPunct isDot, lexeme_of_isIdent ident,
      lexeme_of_isIdent isMember]
  rw [shape]
  exact .intro block found (forall_mem_map.mpr inline) (forall_mem_map.mpr innerInline)

theorem memberAccess?_of_accessAhead
    (ahead : AccessAhead context ((token :: rest).map lexeme) member after) :
    token.isIdent ∧ ∃ binding found others, context.blockNamed? token.text = some binding ∧
      memberAccess? rest = some (found, others) ∧ found.text ∈ binding.memberNames := by
  generalize shape : (token :: rest).map lexeme = pieces at ahead
  cases ahead with
  | @intro name binding member gap innerGap after block found inline innerInline =>
    obtain ⟨head, tail⟩ := List.cons.inj shape
    obtain ⟨ident, rfl⟩ := isIdent_of_lexeme head
    obtain ⟨gapTokens, fromDot, rfl, rfl, dotShape⟩ := map_eq_append_iff.mp tail
    obtain ⟨dot, afterDot, rfl, isDot, innerShape⟩ := map_eq_cons_iff.mp dotShape
    obtain ⟨innerTokens, fromMember, rfl, rfl, memberShape⟩ := map_eq_append_iff.mp innerShape
    obtain ⟨memberToken, others, rfl, isMember, -⟩ := map_eq_cons_iff.mp memberShape
    obtain ⟨memberIdent, rfl⟩ := isIdent_of_lexeme isMember
    have dotPunct := isPunct_of_lexeme isDot
    have first : nextOnLine? (gapTokens ++ dot :: (innerTokens ++ memberToken :: others)) =
        some (dot, innerTokens ++ memberToken :: others) :=
      nextOnLine?_append (forall_mem_map.mp inline)
        (by rw [Token.isTrivia, (Lexeme.mk.inj isDot).1]; rfl)
    have second : nextOnLine? (innerTokens ++ memberToken :: others) = some (memberToken, others) :=
      nextOnLine?_append (forall_mem_map.mp innerInline)
        (by rw [Token.isTrivia, beq_iff_eq.mp memberIdent]; rfl)
    simp_all [memberAccess?]

end Pass

theorem text_join_cons (text : String) (texts : List String) :
    (String.join (text :: texts)).toList = text.toList ++ (String.join texts).toList := by
  rw [String.join_cons, String.toList_append]

/-- A list of texts and the lexemes that a list of tokens is changed to. -/
def Performs (context : Context) (previous : Option Token) (tokens : List Token)
    (texts : List String) : Prop :=
  ∃ flattened, Flattens context (selectsMember previous) (tokens.map lexeme) flattened ∧
    (String.join texts).toList = flattened.flatMap Lexeme.text

theorem Performs.keep {prev : Option Token} {texts : List String}
    (none : selectsMember prev = false →
      ∀ member after, ¬AccessAhead context ((token :: rest).map lexeme) member after)
    (later : Performs context (significantAfter prev token) rest texts) :
    Performs context prev (token :: rest) (token.text :: texts) := by
  obtain ⟨flattened, flattens, text⟩ := later
  rw [selectsMember_significantAfter] at flattens
  refine ⟨lexeme token :: flattened, .keep none flattens, ?_⟩
  rw [text_join_cons, text]
  rfl

theorem blockAt?_eq_some {prev : Option Token}
    (found : blockAt? context prev token = some binding) :
    token.isIdent ∧ selectsMember prev = false ∧ context.blockNamed? token.text = some binding := by
  simp_all [blockAt?]

/-- The pass puts flat names in the place of accesses. -/
theorem flattenFrom_performs (context : Context) (prev : Option Token) (tokens : List Token) :
    Performs context prev tokens (flattenFrom context prev tokens).value := by
  fun_induction flattenFrom context prev tokens with
  | case1 prev => exact ⟨[], .nil, rfl⟩
  | case2 prev token rest keep noBlock ih =>
    refine ih.keep fun free member after ahead => ?_
    grind [memberAccess?_of_accessAhead, blockAt?]
  | case3 prev token rest keep binding block noAccess ih =>
    refine ih.keep fun free member after ahead => ?_
    obtain ⟨-, -, found, others, -, access, -⟩ := memberAccess?_of_accessAhead ahead
    rw [noAccess] at access
    cases access
  | case4 prev token rest binding block member after access found _ ih =>
    obtain ⟨ident, free, named⟩ := blockAt?_eq_some block
    obtain ⟨flattened, flattens, text⟩ := ih
    have ahead := accessAhead_of_memberAccess? ident named access (by simpa using found)
    obtain ⟨-, -, -, -, -, -, -, memberIdent⟩ := memberAccess?_eq_some access
    have plain : selectsMember (some member) = false := by
      rw [selectsMember, Option.any_some, Token.isPunct, beq_iff_eq.mp memberIdent]
      rfl
    rw [plain] at flattens
    rw [Performs, free]
    refine ⟨_, .access ahead flattens, ?_⟩
    show (String.join (context.flatName member.text :: _)).toList = _
    rw [text_join_cons, text]
    rfl
  | case5 prev token rest keep binding block member after access missing ih =>
    refine ih.keep fun free member after ahead => ?_
    obtain ⟨-, other, found, others, named, again, listed⟩ := memberAccess?_of_accessAhead ahead
    rw [(blockAt?_eq_some block).2.2] at named
    grind

/-! The changed lexemes are those of the new text. -/

theorem Splits.drop {front rest : List Lexeme} (splits : Splits text (front ++ rest)) :
    ∃ behind, text = front.flatMap Lexeme.text ++ behind ∧ Splits behind rest := by
  induction front generalizing text with
  | nil => exact ⟨text, rfl, splits⟩
  | cons piece others ih =>
    obtain ⟨tail, rfl, -, later⟩ := splits.cons_inv
    simp_all

/-- The flat names of members are names where the members are, and no block goes by one. -/
structure FlatNames (context : Context) : Prop where
  opening : context.parameterPrefix = "" ∨ isName context.parameterPrefix.toList = true
  free : ∀ binding ∈ context.bindings, binding.kind ≠ .sampler → ∀ member ∈ binding.memberNames,
    context.blockNamed? (context.flatName member) = none

theorem isName_append {front back : List Char} (first : isName front)
    (second : isName back) : isName (front ++ back) := by simp_all [isName.startsName, isName]

theorem FlatNames.named (names : FlatNames context) (named : isName member.toList) :
    isName (context.flatName member).toList := by
  grind [Context.flatName, Context.prefixed, opening, String.empty_append, String.toList_append, isName_append]

theorem blockNamed?_mem (found : context.blockNamed? name = some binding) :
    binding ∈ context.bindings ∧ binding.kind ≠ .sampler ∧ binding.instanceName = some name ∧
      name ≠ "" := by
  have member := mem_of_getLast? found
  simp_all

/-- What is known of a text with flat names in the place of accesses. -/
structure Relexes (text : List Char) (flattened : List Lexeme) : Prop where
  splits : Splits (flattened.flatMap Lexeme.text) flattened
  apart : numbersApart flattened = true
  replaces : Replaces text (flattened.flatMap Lexeme.text)

theorem Flattens.relexes (names : FlatNames context)
    (flattens : Flattens context selects pieces flattened)
    (splits : Splits text pieces) (apart : numbersApart pieces) :
    Relexes text flattened := by
  induction flattens generalizing text with
  | nil =>
    cases splits
    exact ⟨.nil, rfl, .refl []⟩
  | @keep selects piece rest flattened none others ih =>
    obtain ⟨behind, rfl, leads, later⟩ := splits.cons_inv
    obtain ⟨numberApart, laterApart⟩ := later.numbersApart_cons.mp apart
    have relexed := ih later laterApart
    have sameStart := relexed.replaces.startsName_eq
    have newLeads := frontToken_of_resembles leads relexed.replaces.toResembles
      (fun _ => relexed.replaces.names) (fun number => by rw [sameStart, numberApart number])
    refine ⟨.cons newLeads relexed.splits, ?_, relexed.replaces.append piece.text⟩
    exact relexed.splits.numbersApart_cons.mpr
      ⟨fun number => by rw [sameStart, numberApart number], relexed.apart⟩
  | @access pieces rest flattened member ahead others ih =>
    cases ahead with
    | @intro name binding member gap innerGap rest block found inline innerInline =>
      -- The access is passed over piece by piece, as far as its member.
      obtain ⟨afterName, rfl, nameLeads, fromGap⟩ := splits.cons_inv
      obtain ⟨fromDot, rfl, fromDotSplits⟩ := Splits.drop fromGap
      obtain ⟨afterDot, rfl, -, fromInner⟩ := fromDotSplits.cons_inv
      obtain ⟨fromMember, rfl, fromMemberSplits⟩ := Splits.drop fromInner
      obtain ⟨behind, rfl, memberLeads, later⟩ := fromMemberSplits.cons_inv
      have laterApart : numbersApart rest := by
        have fromGapApart := (fromGap.numbersApart_cons.mp apart).2
        have fromDotApart := (numbersApart_parts fromGapApart).2
        have fromInnerApart := (fromInner.numbersApart_cons.mp fromDotApart).2
        exact (later.numbersApart_cons.mp (numbersApart_parts fromInnerApart).2).2
      have relexed := ih later laterApart
      have flatNamed := names.named (isName_of_frontToken memberLeads)
      have newLeads := frontToken_name flatNamed
        (relexed.replaces.word_stops (word_stops memberLeads))
      refine ⟨.cons newLeads relexed.splits, ?_, ?_⟩
      · exact relexed.splits.numbersApart_cons.mpr ⟨nofun, relexed.apart⟩
      grind [replaces_of_names, isName.startsName, isName_of_frontToken]

/-! No access is left. -/

/-- No access on one line is left in lexemes. -/
def Flat (context : Context) (selects : Bool) (pieces : List Lexeme) : Prop :=
  ∀ before rest, pieces = before ++ rest → selectsAfter selects before = false →
    ∀ member after, ¬AccessAhead context rest member after

theorem AccessAhead.listed (ahead : AccessAhead context pieces member after) :
    ∃ binding ∈ context.bindings, binding.kind ≠ .sampler ∧ member ∈ binding.memberNames := by
  cases ahead with
  | intro block found =>
    obtain ⟨listed, kind, -⟩ := blockNamed?_mem block
    exact ⟨_, listed, kind, found⟩

theorem AccessAhead.blockNamed {rest : List Lexeme}
    (ahead : AccessAhead context (⟨.ident, name.toList⟩ :: rest) member after) :
    ∃ binding, context.blockNamed? name = some binding := by
  generalize shape : Lexeme.mk .ident name.toList :: rest = pieces at ahead
  cases ahead with
  | intro block =>
    obtain ⟨head, -⟩ := List.cons.inj shape
    obtain rfl := String.toList_inj.mp (Lexeme.mk.inj head).2
    exact ⟨_, block⟩

/-- What is no name, or stands behind a point, was there before. -/
theorem Flattens.kept (flattens : Flattens context selects pieces (piece :: flattened))
    (other : piece.kind ≠ .ident ∨ selects) :
    ∃ rest, pieces = piece :: rest ∧
      Flattens context (selectsAfter selects [piece]) rest flattened := by
  cases flattens with
  | access ahead others => grind
  | keep none others => exact ⟨_, rfl, others⟩

theorem Flattens.kept_inline {gap : List Lexeme} (inline : ∀ piece ∈ gap, isInline piece)
    (flattens : Flattens context selects pieces (gap ++ flattened)) :
    ∃ rest, pieces = gap ++ rest ∧ Flattens context selects rest flattened := by
  induction gap generalizing pieces with
  | nil => exact ⟨pieces, rfl, flattens⟩
  | cons piece others ih =>
    obtain ⟨here, later⟩ := forall_mem_cons.mp inline
    simp only [isInline, Bool.or_eq_true, beq_iff_eq] at here
    have trivia : piece.kind.isTrivia := by
      rcases here with kind | kind <;> (rw [kind]; rfl)
    have notName : piece.kind ≠ .ident := by
      rcases here with kind | kind <;> (rw [kind]; decide)
    obtain ⟨rest, rfl, further⟩ := flattens.kept (.inl notName)
    simp_all [selectsAfter]

/-- An access whose first name was kept was one before. -/
theorem Flattens.accessAhead {rest : List Lexeme}
    (flattens : Flattens context selects rest flattened)
    (ahead : AccessAhead context (piece :: flattened) member after) :
    ∃ before, AccessAhead context (piece :: rest) member before := by
  generalize shape : piece :: flattened = pieces at ahead
  cases ahead with
  | @intro name binding member gap innerGap after block found inline innerInline =>
    obtain ⟨rfl, rfl⟩ := List.cons.inj shape
    obtain ⟨fromDot, rfl, dotFlattens⟩ := flattens.kept_inline inline
    obtain ⟨afterDot, rfl, innerFlattens⟩ := dotFlattens.kept (.inl (by decide))
    obtain ⟨fromMember, rfl, memberFlattens⟩ := innerFlattens.kept_inline innerInline
    obtain ⟨before, rfl, -⟩ := memberFlattens.kept (.inr rfl)
    exact ⟨before, .intro block found inline innerInline⟩

theorem Flattens.flat (names : FlatNames context)
    (flattens : Flattens context selects pieces flattened) : Flat context selects flattened := by
  induction flattens with
  | nil =>
    intro before rest shape _ member after ahead
    obtain ⟨rfl, rfl⟩ := append_eq_nil_iff.mp shape.symm
    cases ahead
  | @keep selects piece rest flattened none others ih =>
    intro before n shape free member after ahead
    cases before with
    | nil =>
      obtain rfl := shape
      obtain ⟨earlier, wasAhead⟩ := others.accessAhead ahead
      exact none free member earlier wasAhead
    | cons first further =>
      obtain ⟨rfl, rfl⟩ := List.cons.inj shape
      exact ih further n rfl free member after ahead
  | @access pieces rest flattened member ahead others ih =>
    intro before n shape free other after again
    cases before with
    | nil =>
      obtain rfl := shape
      obtain ⟨binding, listed, kind, found⟩ := ahead.listed
      obtain ⟨block, named⟩ := again.blockNamed
      rw [names.free binding listed kind member found] at named
      cases named
    | cons first further =>
      obtain ⟨rfl, rfl⟩ := List.cons.inj shape
      exact ih further n rfl free other after again

/-- A flattened source keeps numbers apart and has no access on one line. -/
theorem flattenMembers_flat (names : FlatNames context) {source : String}
    (apart : numbersApart (lexemes source.toList)) :
    numbersApart (lexemes (flattenMembers context source).value.toList) ∧
      Flat context false (lexemes (flattenMembers context source).value.toList) := by
  obtain ⟨flattened, flattens, text⟩ := flattenFrom_performs context none (lex source)
  have relexed := flattens.relexes names (splits_lexemes source.toList) apart
  have pieces : lexemes (flattenMembers context source).value.toList = flattened := by
    rw [← relexed.splits.lexemes_eq, ← text]
    rfl
  rw [pieces]
  exact ⟨relexed.apart, flattens.flat names⟩

end WebShader.Lowering
