import WebShader.Proofs.Token.LexicalClass

/-!
Contract: the tokens of a text are its lexemes, one after another.

Owns: lexemes, the relation of a text to the lexemes that it splits into, and
the lossless law of `lex`.

`Splits` is the view of `lex` that later proofs use: every text splits into
exactly one list of lexemes, and the tokens are these lexemes put in their
places.
-/

namespace WebShader.Token

open List

variable {kind : TokenKind} {front rest text : List Char} {token : Token} {pieces : List Lexeme}
  {piece : Lexeme} (offset : Nat)

/-- A token without its place. -/
structure Lexeme where
  kind : TokenKind
  text : List Char
  deriving DecidableEq, Repr

def lexeme (token : Token) : Lexeme :=
  ⟨token.kind, token.text.toList⟩

/-- A text splits into lexemes, each of them the front token of what is left. -/
inductive Splits : List Char → List Lexeme → Prop where
  | nil : Splits [] []
  | cons {kind : TokenKind} {front rest : List Char} {lexemes : List Lexeme}
      (leads : frontToken (front ++ rest) = (kind, front.length))
      (others : Splits rest lexemes) : Splits (front ++ rest) (⟨kind, front⟩ :: lexemes)

/-- The tokens of lexemes that start at an offset. -/
def place (offset : Nat) : List Lexeme → List Token
  | [] => []
  | lexeme :: rest =>
    ⟨lexeme.kind, String.ofList lexeme.text, offset⟩ :: place (offset + lexeme.text.length) rest

theorem lexeme_place (lexemes : List Lexeme) : (place offset lexemes).map lexeme = lexemes := by
  induction lexemes generalizing offset with
  | nil => rfl
  | cons first rest ih => simp [place, lexeme, ih]

theorem ne_nil_of_leads
    (leads : frontToken (front ++ rest) = (kind, front.length)) : front ≠ [] := by
  grind [frontToken_positive]

theorem frontToken_alone (leads : frontToken (front ++ rest) = (kind, front.length)) :
    frontToken front = (kind, front.length) := by
  have within : (frontToken (front ++ rest)).2 ≤ front.length :=
    Nat.le_of_eq (congrArg Prod.snd leads)
  rw [frontToken_cut within, leads]

/-- Every text splits. -/
theorem exists_splits (text : List Char) : ∃ lexemes, Splits text lexemes := by
  -- What follows the front token is shorter, because the front token is not empty.
  induction length : text.length using Nat.strongRecOn generalizing text with
  | ind count ih =>
    by_cases empty : text = []
    · exact ⟨[], empty ▸ .nil⟩
    · have positive := frontToken_positive text
      have bounded := frontToken_bounded empty
      obtain ⟨lexemes, others⟩ := ih (text.drop (frontToken text).2).length
        (by rw [length_drop]; omega) (text.drop (frontToken text).2) rfl
      have whole := take_append_drop (frontToken text).2 text
      have frontLength : (text.take (frontToken text).2).length = (frontToken text).2 := by
        rw [length_take]
        omega
      have leads : frontToken (text.take (frontToken text).2 ++ text.drop (frontToken text).2) =
          ((frontToken text).1, (text.take (frontToken text).2).length) := by
        rw [whole, frontLength]
      have splits := Splits.cons leads others
      rw [whole] at splits
      exact ⟨_, splits⟩

/-- The tokens of a text are the lexemes that it splits into, in their places. -/
theorem lexFrom_eq_place {lexemes : List Lexeme} (splits : Splits text lexemes)
    (offset : Nat) : lexFrom offset text = place offset lexemes := by
  induction splits generalizing offset with
  | nil => rw [lexFrom, place]
  | @cons kind front rest lexemes leads others ih =>
    obtain ⟨c, tail, rfl⟩ := exists_cons_of_ne_nil (ne_nil_of_leads leads)
    rw [cons_append] at leads ⊢
    rw [lexFrom, leads]
    simp only [length_cons, Nat.add_sub_cancel, List.drop_left]
    rw [place]
    grind

/-- The lexemes of a text. -/
def lexemes (text : List Char) : List Lexeme :=
  (lexFrom 0 text).map lexeme

theorem Splits.lexemes_eq (splits : Splits text pieces) : lexemes text = pieces := by
  rw [lexemes, lexFrom_eq_place splits, lexeme_place]

theorem splits_lexemes (text : List Char) : Splits text (lexemes text) := by
  obtain ⟨pieces, splits⟩ := exists_splits text
  rwa [splits.lexemes_eq]

theorem lex_eq_place (source : String) : lex source = place 0 (lexemes source.toList) :=
  lexFrom_eq_place (splits_lexemes source.toList) 0

theorem Splits.text_eq (splits : Splits text pieces) : pieces.flatMap Lexeme.text = text := by
  induction splits with
  | nil => rfl
  | cons leads others ih => simp [ih]

/-- A lexeme of a text is, taken alone, one lexeme of the same kind. -/
theorem Splits.singleton (splits : Splits text pieces) (mem : piece ∈ pieces) :
    Splits piece.text [piece] := by
  induction splits with
  | nil => cases mem
  | @cons kind front rest pieces leads others ih =>
    rcases mem_cons.mp mem with rfl | later
    · have single : Splits (front ++ []) [⟨kind, front⟩] :=
        .cons (by rw [append_nil, frontToken_alone leads]) .nil
      rwa [append_nil] at single
    · exact ih later

theorem Splits.ne_nil (splits : Splits text pieces) (mem : piece ∈ pieces) : piece.text ≠ [] := by
  induction splits with
  | nil => cases mem
  | cons leads others ih =>
    rcases mem_cons.mp mem with rfl | later
    · exact ne_nil_of_leads leads
    · exact ih later

/-- Tokens that lie one after another from an offset to another one. -/
def Covers (start : Nat) : List Token → Nat → Prop
  | [], stop => start = stop
  | token :: rest, stop => token.start = start ∧ Covers token.stop rest stop

theorem covers_place (pieces : List Lexeme) :
    Covers offset (place offset pieces) (offset + (pieces.flatMap Lexeme.text).length) := by
  induction pieces generalizing offset with
  | nil => rfl
  | cons piece rest ih =>
    refine ⟨rfl, ?_⟩
    have later := ih (offset + piece.text.length)
    simpa [Token.stop, Nat.add_assoc] using later

/-- The tokens of lexemes in two parts. -/
theorem place_append (pieces others : List Lexeme) :
    place offset (pieces ++ others) =
      place offset pieces ++ place (offset + (pieces.flatMap Lexeme.text).length) others := by
  induction pieces generalizing offset with
  | nil => simp [place]
  | cons piece rest ih =>
    simp only [cons_append, place, ih, flatMap_cons, length_append, Nat.add_assoc]

theorem render_place (pieces : List Lexeme) :
    render (place offset pieces) = String.ofList (pieces.flatMap Lexeme.text) := by
  induction pieces generalizing offset with
  | nil => rfl
  | cons piece rest ih =>
    have later := ih (offset + piece.text.length)
    simp only [render, place, map_cons, String.join_cons] at later ⊢
    rw [later, flatMap_cons, String.ofList_append]

theorem render_append (left right : List Token) :
    render (left ++ right) = render left ++ render right := by
  rw [render, map_append, String.join_append]
  rfl

theorem render_cons (token : Token) (rest : List Token) :
    render (token :: rest) = token.text ++ render rest := by
  rw [render, map_cons, String.join_cons]
  rfl

theorem covers_lex (source : String) : Covers 0 (lex source) source.length := by
  have covers := covers_place 0 (lexemes source.toList)
  rw [(splits_lexemes source.toList).text_eq, Nat.zero_add] at covers
  rwa [lex_eq_place]

theorem render_lex (source : String) : render (lex source) = source := by
  rw [lex_eq_place, render_place, (splits_lexemes source.toList).text_eq, String.ofList_toList]

theorem mem_lex {source : String} (mem : token ∈ lex source) :
    lexeme token ∈ lexemes source.toList := by
  rw [lex_eq_place] at mem
  have mapped := mem_map_of_mem (f := lexeme) mem
  rwa [lexeme_place] at mapped

/-- The lexer is lossless and its tokens are self-contained. No token is empty,
the tokens lie one after another from the start of the source to its end, their
texts spell the source, and the text of a token alone has this one token. -/
theorem lex_lossless (source : String) :
    (∀ token ∈ lex source, token.text ≠ "") ∧
      Covers 0 (lex source) source.length ∧
      render (lex source) = source ∧
      ∀ token ∈ lex source, lex token.text = [{ token with start := 0 }] := by
  have splits := splits_lexemes source.toList
  refine ⟨?_, covers_lex source, render_lex source, ?_⟩
  · intro token member empty
    exact splits.ne_nil (mem_lex member) (by simp [lexeme, empty])
  · intro token member
    have alone : Splits token.text.toList [lexeme token] := splits.singleton (mem_lex member)
    rw [lex, lexFrom_eq_place alone]
    simp [place, lexeme]

end WebShader.Token
