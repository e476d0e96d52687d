import WebShader.Proofs.Token.Relexing
import WebShader.Token.Rename

/-!
Contract: renaming acts on the tokens of a source one by one.

Owns: what becomes of a token, the lexemes of a renamed source, and the renaming
that undoes another one.

A new name stands where a name stood, so every token in front of it ends where it
did. Only a number might go on into another name than before.
-/

namespace WebShader.Token

open List

variable {names : Renaming}

def lastSignificant (tokens : List Token) : Option Token :=
  (tokens.filter (!·.isTrivia)).getLast?

/-- What becomes of a token, given the last significant token before it. A name
after a point is a member and stays. -/
def renamedText (names : Renaming) (previous : Option Token) (token : Token) : String :=
  if token.isIdent && !previous.any (·.isPunct ".") then
    (names.lookup token.text).getD token.text
  else token.text

def renamedLexemes (names : Renaming) (previous : Option Token) : List Token → List Lexeme
  | [] => []
  | token :: rest =>
    ⟨token.kind, (renamedText names previous token).toList⟩ ::
      renamedLexemes names (significantAfter previous token) rest

theorem length_renamedLexemes (names : Renaming) (prev : Option Token) (tokens : List Token) :
    (renamedLexemes names prev tokens).length = tokens.length := by
  induction tokens generalizing prev with
  | nil => rfl
  | cons token rest ih => rw [renamedLexemes, length_cons, length_cons, ih]

theorem renamedTexts_eq (names : Renaming) (prev : Option Token) (tokens : List Token) :
    (renamedTexts names prev tokens).flatMap String.toList =
      (renamedLexemes names prev tokens).flatMap Lexeme.text := by
  induction tokens generalizing prev with
  | nil => rfl
  | cons token rest ih =>
    rw [renamedTexts, renamedLexemes, flatMap_cons, ih]
    rfl

/-! The renamed source. -/

theorem renamedText_cases (named : ∀ entry ∈ names, isName entry.2.toList)
    (prev : Option Token) (token : Token) :
    renamedText names prev token = token.text ∨
      token.kind = .ident ∧ isName (renamedText names prev token).toList := by
  rw [renamedText]
  split
  next renames =>
    cases found : names.lookup token.text with
    | none => exact .inl rfl
    | some name =>
      obtain ⟨before, after, rfl, -⟩ := lookup_eq_some_iff.mp found
      simp only [Bool.and_eq_true, isIdent, beq_iff_eq] at renames
      exact .inr ⟨renames.1, named _ (mem_append_right before mem_cons_self)⟩
  · exact .inl rfl

theorem relexed_renamed (named : ∀ entry ∈ names, isName entry.2.toList)
    (prev : Option Token) {text : List Char} {tokens : List Token}
    (splits : Splits text (tokens.map lexeme)) (apart : numbersApart (tokens.map lexeme)) :
    Relexed text ((renamedLexemes names prev tokens).flatMap Lexeme.text)
      (renamedLexemes names prev tokens) := by
  induction tokens generalizing text prev with
  | nil =>
    cases splits
    exact relexed_nil
  | cons token tokens ih =>
    obtain ⟨rest, rfl, leads, restSplits⟩ := splits.cons_inv
    obtain ⟨numberApart, restApart⟩ := restSplits.numbersApart_cons.mp apart
    have later := ih (significantAfter prev token) restSplits restApart
    rw [renamedLexemes]
    rcases renamedText_cases named prev token with same | ⟨ident, isName⟩
    · rw [same]
      exact later.keep leads numberApart
    · rw [ident]
      exact later.rename leads isName ident

theorem toList_rename (names : Renaming) (source : String) :
    (rename names source).toList =
      (renamedLexemes names none (lex source)).flatMap Lexeme.text := by
  rw [rename, String.toList_join, renamedTexts_eq]

theorem lexemes_rename (named : ∀ entry ∈ names, isName entry.2.toList) {source : String}
    (apart : numbersApart (lexemes source.toList)) :
    (lex (rename names source)).map lexeme = renamedLexemes names none (lex source) := by
  have relexed := relexed_renamed named none (splits_lexemes source.toList) apart
  rw [lex, toList_rename]
  exact relexed.splits.lexemes_eq

theorem lastSignificant_append (before : List Token) (token : Token) :
    lastSignificant (before ++ [token]) = significantAfter (lastSignificant before) token := by
  cases trivia : token.isTrivia <;> simp [lastSignificant, significantAfter, trivia]

theorem renamedLexemes_getElem? (names : Renaming) (before tokens : List Token) (index : Nat) :
    (renamedLexemes names (lastSignificant before) tokens)[index]? = tokens[index]?.map fun token =>
        ⟨token.kind, (renamedText names (lastSignificant (before ++ tokens.take index)) token).toList⟩ := by
  induction tokens generalizing before index with
  | nil => rfl
  | cons token rest ih =>
    cases index with
    | zero => simp [renamedLexemes]
    | succ index =>
      have later := ih (before ++ [token]) index
      rw [lastSignificant_append, append_assoc] at later
      exact later

/-! Undoing a renaming. -/

theorem lookup_swap (distinct : (names.map Prod.snd).Nodup) {old new : String}
    (found : names.lookup old = some new) : (names.map Prod.swap).lookup new = some old := by
  obtain ⟨before, after, rfl, -⟩ := lookup_eq_some_iff.mp found
  refine lookup_eq_some_iff.mpr
    ⟨before.map Prod.swap, after.map Prod.swap, by simp, fun swapped mem => ?_⟩
  grind

section Undo

variable {prev other : Option Token} {token renamed : Token}
  (alike : prev.any (·.isPunct ".") = other.any (·.isPunct "."))
  (kind : renamed.kind = token.kind) (text : renamed.text = renamedText names prev token)

include alike kind text

theorem renamedText_undo (distinct : (names.map Prod.snd).Nodup)
    (fresh : token.kind = .ident → token.text ∉ names.map Prod.snd) :
    renamedText (names.map Prod.swap) other renamed = token.text := by
  rw [renamedText] at text ⊢
  rw [isIdent, kind, ← alike, ← isIdent]
  split at text
  next renames =>
    have ident : token.kind = .ident := by
      simp only [Bool.and_eq_true, isIdent, beq_iff_eq] at renames
      exact renames.1
    rw [if_pos renames, text]
    cases found : names.lookup token.text with
    | none => grind
    | some name => rw [Option.getD_some, lookup_swap distinct found, Option.getD_some]
  next stays => rw [if_neg stays, text]

/-- Members stay members. -/
theorem selects_significantAfter :
    (significantAfter prev token).any (·.isPunct ".") =
      (significantAfter other renamed).any (·.isPunct ".") := by
  have trivia : renamed.isTrivia = token.isTrivia := by rw [isTrivia, kind, isTrivia]
  rw [significantAfter, significantAfter, trivia]
  split
  · exact alike
  · rw [Option.any_some, Option.any_some, isPunct, isPunct, kind, text, renamedText]
    split
    next renames =>
      simp only [Bool.and_eq_true, isIdent, beq_iff_eq] at renames
      rw [renames.1]
      rfl
    · rfl

end Undo

theorem renamedTexts_undo (distinct : (names.map Prod.snd).Nodup) {prev other : Option Token}
    (alike : prev.any (·.isPunct ".") = other.any (·.isPunct ".")) {tokens others : List Token}
    (fresh : ∀ token ∈ tokens, token.kind = .ident → token.text ∉ names.map Prod.snd)
    (renamed : others.map lexeme = renamedLexemes names prev tokens) :
    renamedTexts (names.map Prod.swap) other others = tokens.map Token.text := by
  induction tokens generalizing prev other others with
  | nil =>
    rw [map_eq_nil_iff.mp renamed]
    rfl
  | cons token rest ih =>
    obtain ⟨first, further, rfl, same, later⟩ := map_eq_cons_iff.mp renamed
    have kind : first.kind = token.kind := congrArg Lexeme.kind same
    have text : first.text = renamedText names prev token :=
      String.toList_injective (congrArg Lexeme.text same)
    have here := renamedText_undo alike kind text distinct (fresh token mem_cons_self)
    have behind := ih (selects_significantAfter alike kind text)
      (fun one mem => fresh one (mem_cons_of_mem token mem)) later
    show renamedText (names.map Prod.swap) other first :: _ = _
    rw [here, behind, map_cons]

/-- Renaming acts token by token and can be undone. Each token keeps its kind, and its text is
what `renamedText` gives for it behind the tokens in front of it. If no two names become one and
no new name stands in the source, the opposite renaming gives the source back. -/
theorem lex_rename (named : ∀ entry ∈ names, isName entry.2.toList = true) {source : String}
    (apart : numbersApart (lexemes source.toList) = true) :
    (lex (rename names source)).length = (lex source).length ∧
    (∀ index token, (lex source)[index]? = some token →
      ∃ renamed, (lex (rename names source))[index]? = some renamed ∧ renamed.kind = token.kind ∧
        renamed.text = renamedText names (lastSignificant ((lex source).take index)) token) ∧
    ((names.map Prod.snd).Nodup →
      (∀ token ∈ lex source, token.kind = .ident → token.text ∉ names.map Prod.snd) →
      rename (names.map Prod.swap) (rename names source) = source) := by
  have renamed := lexemes_rename named apart
  have each (index : Nat) : ((lex (rename names source))[index]?).map lexeme =
      (lex source)[index]?.map fun token => ⟨token.kind,
        (renamedText names (lastSignificant ((lex source).take index)) token).toList⟩ := by
    rw [← List.getElem?_map, renamed]
    exact renamedLexemes_getElem? names [] (lex source) index
  refine ⟨?_, ?_, ?_⟩
  · rw [← List.length_map lexeme, renamed, length_renamedLexemes]
  · intro index token found
    have here := each index
    rw [found, Option.map_some, Option.map_eq_some_iff] at here
    obtain ⟨one, listed, same⟩ := here
    exact ⟨one, listed, congrArg Lexeme.kind same,
      String.toList_injective (congrArg Lexeme.text same)⟩
  · intro distinct fresh
    rw [rename, renamedTexts_undo distinct rfl fresh renamed]
    exact render_lex source

def shortNames : Renaming :=
  [("a", "b1"), ("x", "y_")]

/-- One name is also a member and stands in a comment. -/
def memberSum : String :=
  "a . /*x*/ x+1.*x;"

theorem lex_rename_memberSum :
    (∀ entry ∈ shortNames, isName entry.2.toList = true) ∧
    numbersApart (lexemes memberSum.toList) = true ∧
    rename shortNames memberSum = "b1 . /*x*/ x+1.*y_;" ∧
    (lex (rename shortNames memberSum)).length = (lex memberSum).length ∧
    (∀ index token, (lex memberSum)[index]? = some token →
      ∃ renamed, (lex (rename shortNames memberSum))[index]? = some renamed ∧
        renamed.kind = token.kind ∧
        renamed.text = renamedText shortNames (lastSignificant ((lex memberSum).take index)) token) ∧
    rename (shortNames.map Prod.swap) (rename shortNames memberSum) = memberSum := by
  have named : ∀ entry ∈ shortNames, isName entry.2.toList = true := by decide
  have apart : numbersApart (lexemes memberSum.toList) = true := by decide +kernel
  obtain ⟨length, each, undone⟩ := lex_rename named apart
  exact ⟨named, apart, by decide +kernel, length, each, undone (by decide) (by decide +kernel)⟩

end WebShader.Token
