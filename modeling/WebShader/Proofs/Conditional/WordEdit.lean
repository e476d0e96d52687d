import WebShader.Proofs.Condition.Spelling

/-!
Contract: edits of a condition's text, as edits of its lexemes.

Owns: passes over a text that copy all but names; the replacement of the tests
for a definition by numbers and the replacement of names by parenthesised texts,
as such passes; and the lexemes of what they leave.

A pass sees characters only, and takes a name from its first character and the
one before it. A spelled text tells the two apart: a character of a word comes
first in its lexeme or stands behind another one.
-/

namespace WebShader.Conditional

open List Text Condition

variable {c first : Char} {lexeme : Lexeme} {rest text : List Char} {found others : List Lexeme}
  {prev : Option Char} {name : String}

/-! Passes that copy. -/

/-- A pass over a text, with the character before it, that copies what starts no name. -/
structure Copies (pass : Option Char → List Char → List Char) : Prop where
  nil : ∀ previous, pass previous [] = []
  cons : ∀ previous c rest, (isNameStart c && startsWord previous) = false →
    pass previous (c :: rest) = c :: pass (some c) rest

def lastOf (previous : Option Char) (run : List Char) : Option Char :=
  run.foldl (fun _ c => some c) previous

theorem lastOf_cases (prev : Option Char) (run : List Char) :
    run = [] ∧ lastOf prev run = prev ∨ ∃ c ∈ run, lastOf prev run = some c := by
  induction run generalizing prev with
  | nil => exact .inl ⟨rfl, rfl⟩
  | cons c rest ih =>
    rcases ih (some c) with ⟨-, same⟩ | ⟨last, mem, same⟩
    · exact .inr ⟨c, by simp, same⟩
    · exact .inr ⟨last, by simp [mem], same⟩

/-- No word goes on from the character before a text into it. -/
def Fresh (previous : Option Char) (text : List Char) : Prop :=
  previous.any isWord = true → text.head?.any isWord = false

namespace Copies

variable {pass : Option Char → List Char → List Char} (copies : Copies pass)

include copies

theorem plain {run : List Char} (plain : ∀ c ∈ run, isNameStart c = false) (prev : Option Char)
    (rest : List Char) : pass prev (run ++ rest) = run ++ pass (lastOf prev run) rest := by
  induction run generalizing prev with
  | nil => rfl
  | cons c others ih =>
    rw [cons_append, copies.cons _ _ _ (by rw [plain c (by simp)]; rfl),
      ih (fun d mem => plain d (by simp [mem]))]
    rfl

theorem word {run : List Char} (words : run.all isWord) (inside : prev.any isWord)
    (rest : List Char) : pass prev (run ++ rest) = run ++ pass (lastOf prev run) rest := by
  induction run generalizing prev with
  | nil => rfl
  | cons c others ih =>
    rw [all_cons, Bool.and_eq_true] at words
    rw [cons_append, copies.cons _ _ _ (by rw [startsWord, inside, Bool.not_true, Bool.and_false]),
      ih words.2 (by simpa using words.1)]
    rfl

/-- A pass copies gaps. -/
theorem gap {gap : List Char} (blanks : gap.all isBlank) (prev : Option Char)
    (rest : List Char) : pass prev (gap ++ rest) = gap ++ pass (lastOf prev gap) rest :=
  copies.plain (fun c mem =>
    (plain_of_not_isWord (Include.isWord_of_isBlank (all_eq_true.mp blanks c mem))).2) _ _

/-- A pass copies numbers and symbols. -/
theorem written {written : List Char} (isWritten : lexeme.Written written)
    (noName : ∀ name, lexeme ≠ .name name) (prev : Option Char) (rest : List Char) :
    pass prev (written ++ rest) = written ++ pass (lastOf prev written) rest := by
  cases isWritten with
  | @number text run words front =>
    obtain ⟨c, others, rfl⟩ := exists_cons_of_ne_nil (Lexeme.Written.number words front).ne_nil
    rw [all_cons, Bool.and_eq_true] at words
    have noStart := isNameStart_of_number front words.1
    rw [cons_append, copies.cons _ _ _ (by rw [noStart, Bool.false_and]),
      copies.word words.2 (by simpa using words.1)]
    rfl
  | name => exact absurd rfl (noName _)
  | symbol listed =>
    exact copies.plain (fun c mem => (plain_of_not_isWord (symbols_plain listed c mem).1).2) _ _

end Copies

theorem Fresh.starts (fresh : Fresh prev (first :: rest)) (word : isWord first) :
    startsWord prev := by
  rw [startsWord, Bool.not_eq_true']
  apply Bool.eq_false_iff.mpr
  intro inside
  have plain := fresh inside
  grind

theorem Fresh.gap {gap : List Char} (fresh : Fresh prev (gap ++ rest))
    (blanks : gap.all isBlank) : Fresh (lastOf prev gap) rest := by
  rcases lastOf_cases prev gap with ⟨rfl, same⟩ | ⟨c, mem, same⟩
  · exact fresh
  · intro word
    grind [Include.isWord_of_isBlank]

/-- What an edit leaves of a text: lexemes, and a front that ends a lexeme as the old one did. -/
def EditedTo (text other : List Char) (found : List Lexeme) : Prop :=
  Spelled other found ∧ Gentle text other

namespace EditedTo

variable {rest other : List Char} {others : List Lexeme}

theorem gap {gap : List Char} (edited : EditedTo rest other others) (blanks : gap.all isBlank) :
    EditedTo (gap ++ rest) (gap ++ other) others := by
  refine ⟨edited.1.gap blanks, ?_⟩
  cases gap with
  | nil => exact edited.2
  | cons => exact .of_head? rfl

/-- A lexeme that is copied ends where it did. -/
theorem copied {written : List Char} (edited : EditedTo rest other others)
    (isWritten : lexeme.Written written) (ends : lexeme.EndsBefore written rest) :
    EditedTo (written ++ rest) (written ++ other) (lexeme :: others) := by
  refine ⟨@Spelled.lexeme [] _ _ _ _ rfl isWritten (ends.gentle isWritten edited.2) edited.1, ?_⟩
  obtain ⟨c, tail, rfl⟩ := exists_cons_of_ne_nil isWritten.ne_nil
  exact .of_head? rfl

end EditedTo

theorem takeWhile_word {run : List Char} (words : run.all isWord)
    (ends : rest.head?.any isWord = false) :
    (run ++ rest).takeWhile isWord = run ∧ (run ++ rest).dropWhile isWord = rest := by
  have stops : rest.takeWhile isWord = [] ∧ rest.dropWhile isWord = rest := by
    cases rest with
    | nil => exact ⟨rfl, rfl⟩
    | cons c others => simp_all
  simp_all

/-! Names replaced by texts. -/

def rendered (render : String → List Char) (previous : Option Char) (text : List Char) : List Char :=
  (piecesFrom previous text).flatMap fun
    | .name name => render name
    | .other c => [c]

theorem copies_rendered (render : String → List Char) : Copies (rendered render) where
  nil prev := by rw [rendered, piecesFrom]; rfl
  cons prev c rest plain := by
    rw [rendered, piecesFrom, if_neg (by rw [plain]; exact Bool.false_ne_true)]
    rfl

theorem rendered_name (render : String → List Char) {others : List Char}
    (start : isNameStart first) (words : others.all isWord)
    (ends : rest.head?.any isWord = false) (starts : startsWord prev) :
    rendered render prev (first :: others ++ rest) =
      render (String.ofList (first :: others)) ++ rendered render (first :: others).getLast? rest := by
  obtain ⟨taken, dropped⟩ := takeWhile_word words ends
  rw [rendered, cons_append, piecesFrom, if_pos (by rw [start, starts]; rfl), taken, dropped]
  rfl

/-- A word of a condition: a lexeme, or a test whether a macro is defined. -/
inductive Word where
  | lexeme (single : Lexeme)
  | test (name : String)

def Word.lexemes : Word → List Lexeme
  | .lexeme single => [single]
  | .test name => [.name "defined", .symbol "(", .name name, .symbol ")"]

/-- What a word stands for under a table. -/
def Word.standing (table : MacroTable) : Word → Lexeme
  | .lexeme single => single
  | .test name => .number (if table.defines name then "1" else "0")

section Tests

variable (table : MacroTable)

end Tests

end WebShader.Conditional
