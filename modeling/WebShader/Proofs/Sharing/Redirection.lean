import WebShader.Definition.Preamble
import WebShader.Proofs.Sharing.Edit
import WebShader.Proofs.Sharing.Mention
import WebShader.Proofs.Token.Nesting
import WebShader.Token.Rename

/-!
Contract: a source in which a channel has taken the place of a global.

Owns: how the redirected source splits into tokens, how these come from those of
the source, which names it mentions, and that a channel of the global's own type
takes its place by a renaming.

The redirected source keeps every token but the references, so what is put in
their places and in front of others must not run together with its neighbours.
-/

namespace WebShader.Sharing

open List Token

variable {selects : Bool} {channel : Channel} {fn rest : List Char}
  {conversions : List Conversion} {before : List Lexeme} {closers openers pos : Nat}
  {prev : Option Token} {name source : String} {token : Token}

/-- How a redirected text stands to the text before, behind a significant token:
it replaces it, or a call opens in it behind an equals sign. -/
inductive Follows (previous : Option Token) (rest other : List Char) : Prop where
  | replaces (replaces : Replaces rest other)
  | resembles (equals : previous.any (·.isPunct "=") = true) (resembles : Resembles rest other)
  | opens (equals : previous.any (·.isPunct "=") = true) (present : rest ≠ [])
      (sameLine : rest.head? ≠ some '\n') (starts : startsName other = true)

theorem Follows.trivia {prev : Option Token} {taken rest other : List Char} {kind : TokenKind}
    (follows : Follows prev rest other)
    (leads : frontToken (taken ++ rest) = (kind, taken.length)) (trivia : kind.isTrivia) :
    frontToken (taken ++ other) = (kind, taken.length) ∧
      Follows prev (taken ++ rest) (taken ++ other) := by
  have notNumber : kind ≠ .number := by
    rintro rfl
    cases trivia
  have notHash : taken.head? ≠ some '#' := by
    intro hash
    have heads := head_of_trivia leads trivia
    rw [hash] at heads
    exact absurd heads (by decide)
  obtain ⟨c, mem, backslash, carriage⟩ := exists_plain_of_trivia leads trivia
  have alike := resembles_append mem backslash carriage rest other
  cases follows with
  | replaces replaces =>
    exact ⟨frontToken_of_resembles leads replaces.toResembles (fun hash => absurd hash notHash)
      (fun number => absurd number notNumber), .replaces (replaces.append taken)⟩
  | resembles equals resembles =>
    exact ⟨frontToken_of_resembles leads resembles (fun hash => absurd hash notHash)
      (fun number => absurd number notNumber), .resembles equals alike⟩
  | opens equals present sameLine starts =>
    exact ⟨frontToken_trivia leads trivia present sameLine starts, .resembles equals alike⟩

theorem replaces_equals (rest other : List Char) : Replaces ('=' :: rest) ('=' :: other) where
  toResembles := resembles_cons (by decide) (by decide) rest other
  names := by
    exact id

theorem Follows.replaces_of_ne {other : List Char} (follows : Follows (some token) rest other)
    (ne : token.isPunct "=" = false) : Replaces rest other := by
  cases follows with
  | replaces replaces => exact replaces
  | resembles equals _ => exact absurd equals (by simp [ne])
  | opens equals _ _ _ => exact absurd equals (by simp [ne])

/-- A significant token stays what it is in front of a text that follows. -/
theorem Follows.code {token : Token} {rest other : List Char}
    (follows : Follows (some token) rest other)
    (leads : frontToken (token.text.toList ++ rest) = (token.kind, token.text.toList.length))
    (apart : token.kind = .number → startsName rest = false) :
    frontToken (token.text.toList ++ other) = (token.kind, token.text.toList.length) ∧
      (token.kind = .number → startsName other = false) ∧
      Replaces (token.text.toList ++ rest) (token.text.toList ++ other) := by
  cases equals : token.isPunct "=" with
  | false =>
    have replaces := follows.replaces_of_ne equals
    have numbers : token.kind = .number → startsName other = false := by
      intro number
      rw [replaces.startsName_eq, apart number]
    exact ⟨frontToken_of_resembles leads replaces.toResembles (fun _ => replaces.names) numbers,
      numbers, replaces.append _⟩
  | true =>
    simp only [isPunct, Bool.and_eq_true, beq_iff_eq] at equals
    have notNumber : token.kind ≠ .number := by
      rw [equals.1]
      decide
    have text : token.text.toList = ['='] := by
      rw [equals.2]
      rfl
    rw [text] at leads ⊢
    refine ⟨?_, fun number => absurd number notNumber, replaces_equals rest other⟩
    cases follows with
    | replaces replaces =>
      exact frontToken_of_resembles leads replaces.toResembles (fun _ => replaces.names)
        (fun number => absurd number notNumber)
    | resembles _ resembles => grind [frontToken_of_resembles]
    | opens _ _ _ starts =>
      obtain ⟨c, others, rfl, name⟩ := startsName_head starts
      rw [equals.1]
      apply frontToken_equals
      intro same
      obtain rfl : c = '=' := Option.some.inj same
      exact absurd name (by decide)

/-! What is put in. -/

/-- Whether an equals sign is the last significant lexeme. -/
def behindEquals (equals : Bool) (piece : Lexeme) : Bool :=
  if piece.kind.isTrivia then equals else piece == ⟨.punct, ['=']⟩

/-- Whether a lexeme may end an expression. -/
def isClosing (piece : Lexeme) : Bool :=
  piece.kind == .punct && [[')'], [']'], ['\x7d'], [';'], [',']].contains piece.text

/-- The lexemes of a redirected text: a name of the global may be replaced by the channel or by a
call that reads it, and calls may open behind equals signs and close where expressions end. -/
inductive Redirected (name : String) (channel : Channel) :
    Bool → List Lexeme → List Lexeme → Prop where
  | nil {equals : Bool} : Redirected name channel equals [] []
  | kept {equals : Bool} {pieces others : List Lexeme} (piece : Lexeme)
      (later : Redirected name channel (behindEquals equals piece) pieces others) :
      Redirected name channel equals (piece :: pieces) (piece :: others)
  | named {equals : Bool} {pieces others : List Lexeme}
      (later : Redirected name channel false pieces others) :
      Redirected name channel equals (⟨.ident, name.toList⟩ :: pieces)
        (⟨.ident, channel.name.toList⟩ :: others)
  | read {equals : Bool} {pieces others : List Lexeme}
      (later : Redirected name channel false pieces others) :
      Redirected name channel equals (⟨.ident, name.toList⟩ :: pieces)
        (⟨.ident, channel.sourceType.toList⟩ :: ⟨.punct, ['(']⟩ ::
          ⟨.ident, channel.name.toList⟩ :: ⟨.punct, [')']⟩ :: others)
  | opened {pieces others : List Lexeme} (later : Redirected name channel true pieces others) :
      Redirected name channel true pieces
        (⟨.ident, channel.typeName.toList⟩ :: ⟨.punct, ['(']⟩ :: others)
  | closed {equals : Bool} {piece : Lexeme} {pieces others : List Lexeme}
      (closes : isClosing piece = true)
      (later : Redirected name channel equals (piece :: pieces) others) :
      Redirected name channel equals (piece :: pieces) (⟨.punct, [')']⟩ :: others)

section Parts

variable {unwanted rest : List Char} {pieces : List Lexeme}

theorem Cleared.opened (named : isName fn) (ne : fn ≠ unwanted)
    (cleared : Cleared unwanted false rest pieces) :
    Cleared unwanted false (fn ++ '(' :: rest) (⟨.ident, fn⟩ :: ⟨.punct, ['(']⟩ :: pieces) :=
  (cleared.bracket (by decide)).name named ne rfl

theorem Cleared.insertion {equals : Bool} {piece : Lexeme}
    (named : isName channel.typeName.toList) (ne : channel.typeName.toList ≠ unwanted)
    (cleared : Cleared unwanted false rest pieces)
    (redirected : Redirected name channel equals (piece :: before) pieces)
    (closes : closers ≠ 0 → isClosing piece) (opens : openers ≠ 0 → equals) :
    ∃ inserted, Cleared unwanted false
        (insertion (channel.typeName.toList ++ ['(']) closers openers ++ rest) inserted ∧
      Redirected name channel equals (piece :: before) inserted := by
  induction closers with
  | zero =>
    induction openers with
    | zero => exact ⟨pieces, cleared, redirected⟩
    | succ count ih =>
      obtain rfl := opens (Nat.succ_ne_zero count)
      obtain ⟨inserted, further, later⟩ := ih fun _ => rfl
      have opened := further.opened named ne
      have shape : Sharing.insertion (channel.typeName.toList ++ ['(']) 0 (count + 1) ++ rest =
          channel.typeName.toList ++
            '(' :: (Sharing.insertion (channel.typeName.toList ++ ['(']) 0 count ++ rest) := by
        simp [Sharing.insertion, replicate_succ]
      rw [shape]
      exact ⟨_, opened, later.opened⟩
  | succ count ih =>
    have closing := closes (Nat.succ_ne_zero count)
    obtain ⟨inserted, further, later⟩ := ih fun _ => closing
    exact ⟨_, further.bracket (show standsAlone ')' = true by decide), later.closed closing⟩

/-- A name, or a call that converts it. -/
theorem Cleared.converted {fn : String} (functionNamed : isName fn.toList)
    (functionDifferent : fn.toList ≠ unwanted) (named : isName name.toList)
    (ne : name.toList ≠ unwanted) (stops : rest.head?.any Text.isWord = false)
    (cleared : Cleared unwanted false rest pieces) (converts : Bool) :
    ∃ converted, Cleared unwanted false
        ((if converts then fn ++ "(" ++ name ++ ")" else name).toList ++ rest) converted ∧
      startsName ((if converts then fn ++ "(" ++ name ++ ")" else name).toList ++ rest) = true ∧
      converted = if converts then ⟨.ident, fn.toList⟩ :: ⟨.punct, ['(']⟩ ::
          ⟨.ident, name.toList⟩ :: ⟨.punct, [')']⟩ :: pieces
        else ⟨.ident, name.toList⟩ :: pieces := by
  cases converts with
  | false => exact ⟨_, cleared.name named ne stops, isName.startsName named rest, rfl⟩
  | true =>
    have closed := cleared.bracket (show standsAlone ')' = true by decide)
    have inner := closed.name named ne rfl
    have call := inner.opened functionNamed functionDifferent
    simp only [if_true, String.toList_append, append_assoc]
    exact ⟨_, call, isName.startsName functionNamed _, rfl⟩

end Parts

/-- The names that come with a channel are names, and none of them is unwanted. -/
structure Channel.Avoids (channel : Channel) (unwanted : List Char) : Prop where
  named : isName channel.name.toList = true
  typeNamed : isName channel.typeName.toList = true
  sourceNamed : isName channel.sourceType.toList = true
  different : channel.name.toList ≠ unwanted
  typeDifferent : channel.typeName.toList ≠ unwanted
  sourceDifferent : channel.sourceType.toList ≠ unwanted

/-- A reference through the channel, in front of a text in which no word goes on. -/
theorem Cleared.reference {unwanted : List Char} {pieces : List Lexeme}
    (avoids : Channel.Avoids channel unwanted) (stops : rest.head?.any Text.isWord = false)
    (cleared : Cleared unwanted false rest pieces)
    (redirected : Redirected name channel false before pieces) (use : ReferenceUse) (equals : Bool) :
    ∃ reference, Cleared unwanted false ((referenceText channel use).toList ++ rest) reference ∧
      startsName ((referenceText channel use).toList ++ rest) ∧
      Redirected name channel equals (⟨.ident, name.toList⟩ :: before) reference := by
  obtain ⟨converted, convertedCleared, starts, shape⟩ := cleared.converted avoids.sourceNamed
    avoids.sourceDifferent avoids.named avoids.different stops channel.converts
  rw [referenceText]
  split
  · refine ⟨converted, convertedCleared, starts, ?_⟩
    rw [shape]
    split
    · exact redirected.read
    · exact redirected.named
  · exact ⟨_, cleared.name avoids.named avoids.different stops, isName.startsName avoids.named rest,
      redirected.named⟩

/-! The walk. -/

theorem behindEquals_code (code : token.isTrivia = false) (equals : Bool) :
    behindEquals equals (lexeme token) = token.isPunct "=" := by
  have solid : (lexeme token).kind.isTrivia = false := code
  rw [behindEquals, solid]
  exact (isPunct_lexeme token "=").symm

theorem head_ne_lineFeed {taken : List Char} {kind : TokenKind}
    (leads : frontToken (taken ++ rest) = (kind, taken.length)) (code : kind.isTrivia = false) :
    (taken ++ rest).head? ≠ some '\n' := by
  intro lineFeed
  obtain ⟨others, shape⟩ := head?_eq_some_iff.mp lineFeed
  have newline := @frontToken_newline 1 (taken ++ rest) (by rw [shape]; rfl)
  rw [leads] at newline
  obtain rfl : kind = .newline := congrArg Prod.fst newline
  cases code

theorem exists_closing (closes : closesExpression token) :
    ∃ c, isInert c ∧ isClosing (punct c) ∧ lexeme token = punct c := by
  simp only [closesExpression, isPunctIn, ← Bool.and_or_distrib_left, Bool.and_eq_true,
    beq_iff_eq, Bool.or_eq_true, contains_eq_mem, decide_eq_true_eq, mem_cons,
    not_mem_nil, or_false] at closes
  obtain ⟨kind, texts⟩ := closes
  rw [lexeme, kind]
  rcases texts with (text | text | text) | text | text <;> rw [text]
  · exact ⟨')', by decide, by decide, rfl⟩
  · exact ⟨']', by decide, by decide, rfl⟩
  · exact ⟨'\x7d', by decide, by decide, rfl⟩
  · exact ⟨';', by decide, by decide, rfl⟩
  · exact ⟨',', by decide, by decide, rfl⟩

theorem punct_of_closes (closes : closesExpression token) : token.kind = .punct := by
  obtain ⟨c, -, -, same⟩ := exists_closing closes
  exact congrArg Lexeme.kind same

/-- What is inserted in front of a token leaves the redirected text following. -/
theorem follows_insertion {core : List Char} (named : isName fn) (code : token.isTrivia = false)
    (leads : frontToken (token.text.toList ++ rest) = (token.kind, token.text.toList.length))
    (replaces : Replaces (token.text.toList ++ rest) core)
    (closes : closers ≠ 0 → closesExpression token)
    (opens : openers ≠ 0 → prev.any (·.isPunct "=")) :
    Follows prev (token.text.toList ++ rest)
      (insertion (fn ++ ['(']) closers openers ++ core) := by
  cases closers with
  | succ count =>
    obtain ⟨c, inert, -, same⟩ := exists_closing (closes (Nat.succ_ne_zero count))
    rw [show token.text.toList = [c] from congrArg Lexeme.text same]
    exact .replaces (replaces_of_inert inert (by decide) _ _)
  | zero =>
    cases openers with
    | zero => exact .replaces replaces
    | succ count =>
      have present : token.text.toList ++ rest ≠ [] :=
        append_ne_nil_of_left_ne_nil (ne_nil_of_leads leads) rest
      refine .opens (opens (Nat.succ_ne_zero count)) present (head_ne_lineFeed leads code) ?_
      have starts := isName.startsName named
        ('(' :: (List.replicate count (fn ++ ['('])).flatten ++ core)
      simpa [insertion, replicate_succ] using starts

theorem insertedBefore_elsewhere (elsewhere : ∀ conversion ∈ conversions,
      conversion.start ≠ pos ∧ conversion.stop ≠ pos) (opener : String) :
    (insertedBefore opener conversions pos).toList = [] := by
  obtain ⟨closers, openers, inserted, closing, opening⟩ :=
    exists_insertedBefore opener conversions pos
  have noClosers : closers = 0 := by
    apply Decidable.byContradiction
    intro present
    obtain ⟨conversion, mem, here⟩ := closing present
    exact (elsewhere conversion mem).2 here
  have noOpeners : openers = 0 := by
    apply Decidable.byContradiction
    intro present
    obtain ⟨conversion, mem, here⟩ := opening present
    exact (elsewhere conversion mem).1 here
  rw [inserted, noClosers, noOpeners]
  rfl

theorem insertedBefore_trivia {tokens : List Token} (trivia : token.isTrivia)
    (anchored : Anchored conversions prev pos (token :: tokens)) (opener : String) :
    (insertedBefore opener conversions pos).toList = [] := by
  refine insertedBefore_elsewhere (fun conversion mem => ⟨fun here => ?_, fun here => ?_⟩) opener
  · rw [(anchored.opens mem here).1] at trivia
    cases trivia
  · rw [isTrivia, punct_of_closes (anchored.closes mem here)] at trivia
    cases trivia

section Token

variable {name unwanted : String} {channel : Channel} {prev : Option Token} {token : Token}
  {rest other : List Char} {before pieces : List Lexeme}

theorem reference_cleared (avoids : Channel.Avoids channel unwanted.toList)
    (ident : token.kind = .ident)
    (leads : frontToken (token.text.toList ++ rest) = (token.kind, token.text.toList.length))
    (follows : Follows (some token) rest other)
    (cleared : Cleared unwanted.toList (selectsMember (some token)) other pieces)
    (redirected : Redirected name channel false before pieces) (use : ReferenceUse)
    (equals : Bool) :
    ∃ reference, Cleared unwanted.toList false ((referenceText channel use).toList ++ other) reference ∧
      Replaces (token.text.toList ++ rest) ((referenceText channel use).toList ++ other) ∧
      Redirected name channel equals (⟨.ident, name.toList⟩ :: before) reference := by
  rw [ident] at leads
  have notPunct : ∀ text, token.isPunct text = false := by simp [isPunct, ident]
  have stops := (follows.replaces_of_ne (notPunct "=")).word_stops (word_stops leads)
  rw [selectsMember, Option.any_some, notPunct] at cleared
  obtain ⟨reference, referenceCleared, starts, further⟩ :=
    cleared.reference avoids stops redirected use equals
  refine ⟨reference, referenceCleared, replaces_of_names ?_ starts, further⟩
  have splits := @Splits.cons .ident token.text.toList rest _ leads (splits_lexemes rest)
  rw [splits.startsName_eq]
  rfl

variable (code : token.isTrivia = false)
  (leads : frontToken (token.text.toList ++ rest) = (token.kind, token.text.toList.length))
  (apart : token.kind = .number → startsName rest = false)
  (follows : Follows (some token) rest other)
  (cleared : Cleared unwanted.toList (selectsMember (some token)) other pieces)

include code leads apart follows cleared

theorem kept_cleared (absent : (token.isWord unwanted && !selects) = false) :
    Cleared unwanted.toList selects (token.text.toList ++ other) (lexeme token :: pieces) ∧
      Replaces (token.text.toList ++ rest) (token.text.toList ++ other) := by
  obtain ⟨otherLeads, otherApart, replaces⟩ := follows.code leads apart
  have after : selectsAfter selects [lexeme token] = selectsMember (some token) := by
    have same := isPoint_lexeme token
    rw [isTrivia] at code
    simpa [selectsAfter, lexeme, code, selectsMember] using same
  rw [isWord_lexeme] at absent
  rw [← after] at cleared
  exact ⟨cleared.cons otherLeads otherApart absent, replaces⟩

variable {tokens : List Token} (avoids : Channel.Avoids channel unwanted.toList)
  (behind : Redirected name channel (token.isPunct "=") (tokens.map lexeme) pieces)
  (known : unwanted = name ∨ (token.isWord unwanted && !selectsMember prev) = false)

include avoids behind known

/-- What one token becomes, apart from what is inserted in front of it. -/
theorem redirectedText_cleared (same : token.kind = .ident → selects = selectsMember prev)
    (equals : Bool) :
    ∃ redirected, Cleared unwanted.toList selects
        ((redirectedText name channel prev token tokens).toList ++ other) redirected ∧
      Replaces (token.text.toList ++ rest)
        ((redirectedText name channel prev token tokens).toList ++ other) ∧
      Redirected name channel equals ((token :: tokens).map lexeme) redirected := by
  rw [redirectedText]
  cases reference : isReference name prev token with
  | true =>
    simp only [isReference, isWord, Bool.and_eq_true, beq_iff_eq] at reference
    obtain ⟨ident, text⟩ := reference.1
    have piece : lexeme token = ⟨.ident, name.toList⟩ := by rw [lexeme, ident, text]
    have other : token.isPunct "=" = false := by simp [isPunct, ident]
    rw [other] at behind
    obtain ⟨pieces, referenceCleared, replaces, further⟩ :=
      reference_cleared avoids ident leads follows cleared behind _ equals
    exact ⟨pieces, referenceCleared.behind selects, replaces, by rwa [map_cons, piece]⟩
  | false =>
    have absent : (token.isWord unwanted && !selects) = false := by
      cases word : token.isWord unwanted with
      | false => rfl
      | true =>
        have ident : token.kind = .ident := by
          simp only [isWord, Bool.and_eq_true, beq_iff_eq] at word
          exact word.1
        rw [same ident]
        rcases known with rfl | elsewhere
        · rwa [isReference, word] at reference
        · rwa [word] at elsewhere
    obtain ⟨kept, replaces⟩ := kept_cleared code leads apart follows cleared absent
    refine ⟨_, kept, replaces, .kept _ ?_⟩
    rwa [behindEquals_code code]

/-- A significant token with what is inserted in front of it. -/
theorem redirect_code (anchored : Anchored conversions prev pos (token :: tokens)) :
    ∃ redirected, Cleared unwanted.toList (selectsMember prev)
        ((insertedBefore (channel.typeName ++ "(") conversions pos).toList ++
          ((redirectedText name channel prev token tokens).toList ++ other)) redirected ∧
      Follows prev (token.text.toList ++ rest)
        ((insertedBefore (channel.typeName ++ "(") conversions pos).toList ++
          ((redirectedText name channel prev token tokens).toList ++ other)) ∧
      Redirected name channel (prev.any (·.isPunct "=")) ((token :: tokens).map lexeme)
        redirected := by
  obtain ⟨closers, openers, inserted, closing, opening⟩ :=
    exists_insertedBefore (channel.typeName ++ "(") conversions pos
  have closes : closers ≠ 0 → closesExpression token := by
    intro present
    obtain ⟨conversion, mem, here⟩ := closing present
    exact anchored.closes mem here
  have opens : openers ≠ 0 → prev.any (·.isPunct "=") := by
    intro present
    obtain ⟨conversion, mem, here⟩ := opening present
    exact (anchored.opens mem here).2
  have opener : (channel.typeName ++ "(").toList = channel.typeName.toList ++ ['('] := by
    rw [String.toList_append]
    rfl
  rw [inserted, opener]
  by_cases none : closers = 0 ∧ openers = 0
  · obtain ⟨rfl, rfl⟩ := none
    obtain ⟨redirected, redirectedCleared, replaces, further⟩ := redirectedText_cleared code
      leads apart follows cleared avoids behind known (fun _ => rfl) (prev.any (·.isPunct "="))
    exact ⟨redirected, redirectedCleared,
      follows_insertion avoids.typeNamed code leads replaces (absurd rfl) (absurd rfl), further⟩
  · -- Behind what is inserted the token selects no member, as behind an equals sign.
    have same : token.kind = .ident → false = selectsMember prev := by
      intro ident
      have noClosers : closers = 0 := by
        apply Decidable.byContradiction
        intro present
        have punct := punct_of_closes (closes present)
        rw [ident] at punct
        cases punct
      cases prev with
      | none => rfl
      | some token => simp_all [isPunct, selectsMember]
    obtain ⟨redirected, redirectedCleared, replaces, further⟩ := redirectedText_cleared code
      leads apart follows cleared avoids behind known same (prev.any (·.isPunct "="))
    have closingPiece : closers ≠ 0 → isClosing (lexeme token) := by
      intro present
      obtain ⟨c, -, isClosing, same⟩ := exists_closing (closes present)
      rwa [same]
    obtain ⟨whole, wholeCleared, wholeRedirected⟩ := redirectedCleared.insertion avoids.typeNamed
      avoids.typeDifferent further closingPiece opens
    exact ⟨whole, wholeCleared.behind _,
      follows_insertion avoids.typeNamed code leads replaces closes opens, wholeRedirected⟩

end Token

/-- The redirected source splits, keeps numbers apart and does not mention the
global, nor any other name that it did not mention before. -/
theorem redirectFrom_cleared {name unwanted : String} {conversions : List Conversion}
    {pos : Nat} {tokens : List Token} {text : List Char}
    (avoids : Channel.Avoids channel unwanted.toList) (splits : Splits text (tokens.map lexeme))
    (apart : numbersApart (tokens.map lexeme))
    (anchored : Anchored conversions prev pos tokens)
    (known : unwanted = name ∨
      occurs unwanted.toList (selectsMember prev) (tokens.map lexeme) = false) :
    ∃ pieces, Cleared unwanted.toList (selectsMember prev)
        (redirectFrom name channel conversions prev pos tokens) pieces ∧
      Follows prev text (redirectFrom name channel conversions prev pos tokens) ∧
      Redirected name channel (prev.any (·.isPunct "=")) (tokens.map lexeme) pieces := by
  induction tokens generalizing prev pos text with
  | nil =>
    cases splits
    exact ⟨[], ⟨.nil, rfl, rfl⟩, .replaces (.refl []), .nil⟩
  | cons token tokens ih =>
    obtain ⟨rest, rfl, leads, restSplits⟩ := splits.cons_inv
    obtain ⟨numberApart, restApart⟩ := restSplits.numbersApart_cons.mp apart
    have knownHere : unwanted = name ∨ (token.isWord unwanted && !selectsMember prev) = false := by
      rcases known with same | absent
      · exact .inl same
      · rw [map_cons, occurs, Bool.or_eq_false_iff, ← isWord_lexeme] at absent
        exact .inr absent.1
    have knownLater : unwanted = name ∨ occurs unwanted.toList
        (selectsMember (significantAfter prev token)) (tokens.map lexeme) = false := by
      rcases known with same | absent
      · exact .inl same
      · rw [map_cons, occurs, Bool.or_eq_false_iff, ← selectsMember_significantAfter] at absent
        exact .inr absent.2
    obtain ⟨pieces, cleared, follows, before⟩ := ih restSplits restApart anchored.tail knownLater
    rw [redirectFrom]
    cases trivia : token.isTrivia with
    | true =>
      have after : significantAfter prev token = prev := by
        rw [significantAfter, if_pos trivia]
      have text : redirectedText name channel prev token tokens = token.text := by
        rw [redirectedText, isReference_trivia name trivia]
        rfl
      rw [after] at cleared follows
      rw [after, text, insertedBefore_trivia trivia anchored]
      obtain ⟨otherLeads, otherFollows⟩ := follows.trivia leads trivia
      have passed : behindEquals (prev.any (·.isPunct "=")) (lexeme token) =
          (significantAfter prev token).any (·.isPunct "=") := by
        rw [after]
        exact if_pos trivia
      exact ⟨lexeme token :: pieces, cleared.trivia otherLeads trivia, otherFollows,
        .kept _ (by rwa [passed])⟩
    | false =>
      have after : significantAfter prev token = some token := by
        rw [significantAfter, if_neg (by simp [trivia])]
      rw [after] at cleared follows before
      rw [after]
      exact redirect_code trivia leads numberApart follows cleared avoids before knownHere anchored

theorem redirectReferences_toList (name : String) (channel : Channel) (source : String) :
    (redirectReferences name channel source).toList =
      redirectFrom name channel (editsFrom name channel none
        (significantFrom 0 (lex source))).conversions none 0 (lex source) := by
  rw [redirectReferences, significant_eq]
  exact applyEdits_eq name channel _ none 0 (lex source)

theorem redirectReferences_cleared {unwanted : String}
    (avoids : Channel.Avoids channel unwanted.toList)
    (apart : numbersApart (lexemes source.toList))
    (known : unwanted = name ∨ mentions unwanted source = false) :
    numbersApart (lexemes (redirectReferences name channel source).toList) ∧
      mentions unwanted (redirectReferences name channel source) = false := by
  have anchored := anchored_edits name channel (lex source)
  rw [mentions_eq] at known
  have splits : Splits source.toList ((lex source).map lexeme) := splits_lexemes source.toList
  obtain ⟨pieces, cleared, -, -⟩ := redirectFrom_cleared avoids splits apart anchored known
  rw [mentions_eq, redirectReferences_toList, cleared.splits.lexemes_eq]
  exact ⟨cleared.apart, cleared.absent⟩

/-! Code in front of all references. -/

section Front

variable {name : String} {channel : Channel} {prev : Option Token} {pos : Nat}
  {front rest : List Token}

theorem editsFrom_front
    (absent : occurs name.toList (selectsMember prev) (front.map lexeme) = false) :
    editsFrom name channel prev (significantFrom pos (front ++ rest)) =
      editsFrom name channel (front.foldl significantAfter prev)
        (significantFrom (pos + front.length) rest) := by
  induction front generalizing prev pos with
  | nil => rfl
  | cons token tokens ih =>
    rw [map_cons, occurs, Bool.or_eq_false_iff, ← selectsMember_significantAfter,
      ← isWord_lexeme] at absent
    have later := @ih (significantAfter prev token) (pos + 1) absent.2
    rw [cons_append, significantFrom, foldl_cons, length_cons,
      show pos + (tokens.length + 1) = pos + 1 + tokens.length by omega, ← later,
      significantAfter]
    split
    · rfl
    · rw [editsFrom, if_neg (by rw [absent.1]; decide)]

theorem redirectFrom_front
    (absent : occurs name.toList (selectsMember prev) (front.map lexeme) = false)
    (behind : ∀ conversion ∈ conversions, pos + front.length ≤ conversion.start ∧
      pos + front.length ≤ conversion.stop) :
    redirectFrom name channel conversions prev pos (front ++ rest) =
      (front.map lexeme).flatMap Lexeme.text ++
        redirectFrom name channel conversions (front.foldl significantAfter prev)
          (pos + front.length) rest := by
  induction front generalizing prev pos with
  | nil => rfl
  | cons token tokens ih =>
    rw [map_cons, occurs, Bool.or_eq_false_iff, ← selectsMember_significantAfter,
      ← isWord_lexeme] at absent
    have elsewhere : ∀ conversion ∈ conversions,
        conversion.start ≠ pos ∧ conversion.stop ≠ pos := by
      intro conversion mem
      have bounds := behind conversion mem
      rw [length_cons] at bounds
      omega
    have further : ∀ conversion ∈ conversions, pos + 1 + tokens.length ≤ conversion.start ∧
        pos + 1 + tokens.length ≤ conversion.stop := by
      intro conversion mem
      have bounds := behind conversion mem
      rw [length_cons] at bounds
      omega
    have text : redirectedText name channel prev token (tokens ++ rest) = token.text := by
      rw [redirectedText, isReference, absent.1]
      rfl
    rw [cons_append, redirectFrom, insertedBefore_elsewhere elsewhere, text, ih absent.2 further, map_cons, flatMap_cons,
      append_assoc, length_cons,
      show pos + (tokens.length + 1) = pos + 1 + tokens.length by omega]
    rfl

end Front

/-- A redirection leaves whole lines in front of all references as they are. -/
theorem redirectReferences_front {front back : List Char} (avoids : Channel.Avoids channel [])
    (text : source.toList = front ++ back) (isSettled : settled (lexemes front))
    (frontApart : numbersApart (lexemes front))
    (backApart : numbersApart (lexemes back))
    (absent : occurs name.toList false (lexemes front) = false) :
    ∃ other pieces equals, (redirectReferences name channel source).toList = front ++ other ∧
      Splits other pieces ∧ numbersApart pieces ∧
      Redirected name channel equals (lexemes back) pieces := by
  have split : lexemes source.toList = lexemes front ++ lexemes back := by
    rw [text]
    exact lexemes_append isSettled back
  have tokens := place_append 0 (lexemes front) (lexemes back)
  rw [← split, ← lex_eq_place] at tokens
  have frontPieces := lexeme_place 0 (lexemes front)
  have backPieces := lexeme_place (0 + ((lexemes front).flatMap Lexeme.text).length) (lexemes back)
  generalize place 0 (lexemes front) = frontTokens at tokens frontPieces
  generalize place _ (lexemes back) = backTokens at tokens backPieces
  have frontAbsent : occurs name.toList (selectsMember none) (frontTokens.map lexeme) = false := by
    rwa [frontPieces]
  rw [redirectReferences_toList, tokens, editsFrom_front frontAbsent, Nat.zero_add]
  have anchored : Anchored (editsFrom name channel (frontTokens.foldl significantAfter none)
      (significantFrom frontTokens.length backTokens)).conversions
      (frontTokens.foldl significantAfter none) frontTokens.length backTokens :=
    ⟨fun _ mem => .inr (mem_of_mem_conversions mem).1,
      fun _ mem => .inr (mem_of_mem_conversions mem).2⟩
  rw [redirectFrom_front frontAbsent, frontPieces, (splits_lexemes front).text_eq, Nat.zero_add]
  · have nameless : occurs "".toList (selectsMember (frontTokens.foldl significantAfter none))
        (backTokens.map lexeme) = false := by
      rw [backPieces]
      exact occurs_empty (fun _ mem => (splits_lexemes back).ne_nil mem) _
    obtain ⟨pieces, cleared, -, redirected⟩ := @redirectFrom_cleared channel _ name "" _ _ _
      back avoids (by rw [backPieces]; exact splits_lexemes back) (by rwa [backPieces]) anchored
      (.inr nameless)
    rw [backPieces] at redirected
    exact ⟨_, pieces, _, rfl, cleared.splits, cleared.apart, redirected⟩
  · intro conversion mem
    obtain ⟨starts, stops⟩ := mem_of_mem_conversions mem
    rw [Nat.zero_add]
    exact ⟨le_of_mem_afterEquals starts, le_of_mem_closingPositions stops⟩

/-! Channels of the global's own type. -/

section Plain

variable (plain : channel.converts = false) (name : String)
include plain

theorem conversions_plain (placed : List Placed) :
    (editsFrom name channel prev placed).conversions = [] := by
  induction placed generalizing prev with
  | nil => rfl
  | cons entry rest ih =>
    rw [editsFrom, plain]
    split
    · exact ih
    · exact ih

theorem redirectedText_plain (token : Token) (rest : List Token) :
    redirectedText name channel prev token rest =
      if token.isIdent && !selectsMember prev then
        ([(name, channel.name)].lookup token.text).getD token.text
      else token.text := by
  have text (use : ReferenceUse) : referenceText channel use = channel.name := by
    rw [referenceText, Channel.read, plain]
    exact ite_self _
  rw [redirectedText, isReference, isWord, ← isIdent, text, lookup_cons]
  cases token.isIdent with
  | false => rfl
  | true => cases selectsMember prev <;> cases token.text == name <;> rfl

/-- Without conversions both walks look back at the same token and put in the same text. -/
theorem redirectFrom_plain (pos : Nat) (tokens : List Token) :
    redirectFrom name channel [] prev pos tokens =
      (String.join (renamedTexts [(name, channel.name)] prev tokens)).toList := by
  induction tokens generalizing prev pos with
  | nil => rfl
  | cons token rest ih =>
    rw [redirectFrom, ih, redirectedText_plain plain, renamedTexts, String.join_cons,
      String.toList_append]
    rfl

end Plain

/-- A channel that has the type of the global which it carries takes the global's place by a
renaming. -/
theorem redirectReferences_eq_rename {channel : Channel}
    (same : channel.typeName = channel.sourceType) (target : GlobalVariable) (source : String) :
    redirectReferences target.name channel source = rename [(target.name, channel.name)] source := by
  have plain : channel.converts = false := by simp [Channel.converts, same]
  rw [← String.toList_inj, redirectReferences_toList, conversions_plain plain,
    redirectFrom_plain plain]
  rfl

/-- A member and a comment of the global's name stay. -/
theorem redirectReferences_eq_rename_member :
    redirectReferences "glow" ⟨"glow", "v_glow", "float", "float"⟩ "a.glow = glow; // glow" =
        rename [("glow", "v_glow")] "a.glow = glow; // glow" ∧
      rename [("glow", "v_glow")] "a.glow = glow; // glow" = "a.glow = v_glow; // glow" :=
  ⟨@redirectReferences_eq_rename ⟨"glow", "v_glow", "float", "float"⟩ rfl
    ⟨"float", "glow", none, "", false, .unclassified⟩ _, by decide +kernel⟩

end WebShader.Sharing
