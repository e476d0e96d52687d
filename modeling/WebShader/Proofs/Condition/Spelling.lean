import Mathlib.Data.List.Chain
import WebShader.Proofs.Condition.Substitution
import WebShader.Proofs.Include.Script

/-!
Contract: how the lexemes of a condition are written.

Owns: the texts that a list of lexemes without points can have, with the gaps
between the lexemes and what has to follow each of them; that the lexical analysis
of such a text gives the lexemes back; and that every text it accepts is of this
kind, as long as no two operands are neighbours.

A lexeme reaches as far as it can. What this asks of the text behind it is stated
with its first character only, so that the text may be exchanged for another one.
-/

namespace WebShader.Condition

open List Text
open Token (digit_not_name drop_runLength nameStart_word)

variable {c : Char} {other rest written : List Char} {found : List Lexeme} {length : Nat}
  {symbol : String}

/-! Characters. -/

theorem isWord_of_isDigit (digit : isDigit c) : isWord c := by
  have listed : (decimalZeros.all fun first => Nat.ble 128 first &&
      wordRanges.any fun range => Nat.ble range.1 first && Nat.ble (first + 9) range.2) := by
    decide +kernel
  obtain ⟨value, found⟩ := Option.isSome_iff_exists.mp digit
  simp only [digitValue?] at found
  split at found
  · grind [isWord, isAsciiDigit]
  · obtain ⟨first, near, -⟩ := Option.map_eq_some_iff.mp found
    have within := find?_some near
    have covered := all_eq_true.mp listed first (mem_of_find?_eq_some near)
    simp only [Bool.and_eq_true, decide_eq_true_eq, any_eq_true, Nat.ble_eq] at within covered
    obtain ⟨beyond, range, mem, lower, upper⟩ := covered
    have ranged : inRanges wordRanges c.toNat := by
      refine any_eq_true.mpr ⟨range, mem, ?_⟩
      simp only [Bool.and_eq_true, decide_eq_true_eq]
      omega
    grind [isWord]

theorem isWord_of_isHexDigit (digit : isHexDigit c) : isWord c := by
  simp only [isHexDigit, hexValue?] at digit
  simp only [isWord, isAsciiLetter, isAsciiDigit]
  grind

theorem isWord_of_isSuffix (suffix : isSuffix c) : isWord c := by
  simp only [isSuffix, contains_eq_mem, decide_eq_true_eq, mem_cons, not_mem_nil,
    or_false] at suffix
  rcases suffix with rfl | rfl | rfl | rfl | rfl | rfl <;> decide

/-- The characters that no word has are no digits and start no name. -/
theorem plain_of_not_isWord (plain : isWord c = false) :
    isDigit c = false ∧ isNameStart c = false := by grind [isWord_of_isDigit, nameStart_word]

theorem head?_of_not_isWord (ends : rest.head?.any isWord = false) {inClass : Char → Bool}
    (words : ∀ c, inClass c → isWord c) : rest.head?.any inClass = false := by
  cases rest with
  | nil => rfl
  | cons c others => grind

def secondCharacters : List Char :=
  ['|', '&', '=', '<', '>']

/-- A symbol has one character, or two of which the second is known. -/
theorem symbols_short (listed : symbol ∈ symbols) :
    (∃ first, symbol.toList = [first]) ∨
      ∃ first second, symbol.toList = [first, second] ∧ second ∈ secondCharacters := by
  have all : (symbols.all fun symbol => symbol.toList.length == 1 ||
      (symbol.toList.length == 2 && symbol.toList.getLast?.any secondCharacters.contains)) := by
    decide
  have here := all_eq_true.mp all symbol listed
  generalize symbol.toList = characters at here
  match characters, here with
  | [first], _ => exact .inl ⟨first, rfl⟩
  | [first, second], known => exact .inr ⟨first, second, rfl, by simpa using known⟩

/-- The characters of symbols are neither blank nor of a word, and no points. -/
theorem symbols_plain (listed : symbol ∈ symbols) :
    ∀ c ∈ symbol.toList, isWord c = false ∧ isBlank c = false ∧ c ≠ '.' := by
  have all : (symbols.all fun symbol => symbol.toList.all fun c =>
      !isWord c && !isBlank c && c != '.') := by
    decide +kernel
  grind

/-! Texts of lexemes. -/

/-- How a lexeme without a point is written, a number with its suffix. -/
inductive Lexeme.Written : Lexeme → List Char → Prop
  | number {text : String} {run : List Char} : run.all isWord = true →
      frontLexeme? run = some (some (.number text), run.length) → Written (.number text) run
  | name {first : Char} {rest : List Char} : isNameStart first = true → rest.all isWord = true →
      Written (.name (String.ofList (first :: rest))) (first :: rest)
  | symbol {text : String} : text ∈ symbols → Written (.symbol text) text.toList

/-- Whether a lexeme ends where a text begins: a word does not go on, and no longer symbol
stands there. -/
def Lexeme.EndsBefore (lexeme : Lexeme) (written rest : List Char) : Prop :=
  match lexeme with
  | .symbol text =>
    symbols.find? (fun symbol => symbol.toList.isPrefixOf (written ++ rest)) = some text
  | _ => rest.head?.any isWord = false

/-- A text that has some lexemes, with blanks between them. -/
inductive Spelled : List Char → List Lexeme → Prop
  | blanks {gap : List Char} : gap.all isBlank = true → Spelled gap []
  | lexeme {gap written rest : List Char} {lexeme : Lexeme} {others : List Lexeme} :
      gap.all isBlank = true → lexeme.Written written → lexeme.EndsBefore written rest →
      Spelled rest others → Spelled (gap ++ (written ++ rest)) (lexeme :: others)

theorem Lexeme.Written.ne_nil {lexeme : Lexeme} (isWritten : lexeme.Written written) :
    written ≠ [] := by
  cases isWritten with
  | number _ front =>
    rintro rfl
    cases front
  | name => exact cons_ne_nil _ _
  | symbol listed => grind [symbols_short]

/-- No lexeme without a point has one. -/
theorem Lexeme.Written.noPoint {lexeme : Lexeme} (isWritten : lexeme.Written written) :
    '.' ∉ written := by
  have isPlain : isWord '.' = false := by decide
  intro mem
  cases isWritten with
  | number words => grind
  | name start words =>
    have word : isWord '.' := by
      rcases mem_cons.mp mem with rfl | later
      · exact nameStart_word start
      · exact all_eq_true.mp words _ later
    rw [word] at isPlain
    cases isPlain
  | symbol listed => exact (symbols_plain listed _ mem).2.2 rfl

theorem Spelled.noPoint {text : List Char} (spelled : Spelled text found) : '.' ∉ text := by
  have blank {gap : List Char} (blanks : gap.all isBlank) : '.' ∉ gap := by
    intro mem
    have isBlank := all_eq_true.mp blanks _ mem
    revert isBlank
    decide
  induction spelled with
  | blanks blanks => exact blank blanks
  | lexeme blanks isWritten _ _ ih =>
    simp [blank blanks, isWritten.noPoint, ih]

theorem Spelled.ne_nil {text : List Char} (spelled : Spelled text found) (some : found ≠ []) :
    text ≠ [] := by
  cases spelled with
  | blanks => exact absurd rfl some
  | lexeme _ isWritten => simp [isWritten.ne_nil]

theorem Spelled.gap {text : List Char} (spelled : Spelled text found) {gap : List Char}
    (blanks : gap.all isBlank) : Spelled (gap ++ text) found := by
  cases spelled with
  | blanks more => exact .blanks (by rw [all_append, blanks, more]; rfl)
  | lexeme more isWritten ends others =>
    rw [← append_assoc]
    exact .lexeme (by rw [all_append, blanks, more]; rfl) isWritten ends others

/-! Exchanging the text behind a lexeme. -/

/-- A text that ends a lexeme wherever another one does. -/
structure Gentle (rest other : List Char) : Prop where
  word : rest.head?.any isWord = false → other.head?.any isWord = false
  symbol : other.head? = rest.head? ∨ other.head?.any secondCharacters.contains = false

theorem Gentle.of_head? (same : other.head? = rest.head?) : Gentle rest other :=
  ⟨fun plain => by rwa [same], .inl same⟩

/-- A symbol is looked for in its own characters and the first one behind them. -/
theorem isPrefixOf_gentle (gentle : Gentle rest other) {text : String} (listed : symbol ∈ symbols)
    (known : text ∈ symbols) (found : symbol.toList.isPrefixOf (text.toList ++ other)) :
    symbol.toList.isPrefixOf (text.toList ++ rest) := by
  rw [List.isPrefixOf_iff_prefix] at found ⊢
  rcases symbols_short known with ⟨first, shape⟩ | ⟨first, second, shape, -⟩
  · rw [shape] at found ⊢
    rcases symbols_short listed with ⟨only, same⟩ | ⟨only, next, same, isSecond⟩
    · rw [same] at found ⊢
      simpa using found
    · rw [same] at found ⊢
      obtain ⟨rfl, behind⟩ := List.cons_prefix_cons.mp found
      obtain ⟨tail, rfl⟩ := behind
      refine List.cons_prefix_cons.mpr ⟨rfl, ?_⟩
      rcases gentle.symbol with same | foreign
      · obtain ⟨others, shape⟩ := head?_eq_some_iff.mp same.symm
        exact ⟨others, shape.symm⟩
      · simp [isSecond] at foreign
  grind [symbols_short]

theorem Lexeme.EndsBefore.gentle {lexeme : Lexeme} (ends : lexeme.EndsBefore written rest)
    (isWritten : lexeme.Written written) (gentle : Gentle rest other) :
    lexeme.EndsBefore written other := by
  cases isWritten with
  | number => exact gentle.word ends
  | name => exact gentle.word ends
  | @symbol text listed =>
    obtain ⟨-, before, after, shape, shorter⟩ := find?_eq_some_iff_append.mp ends
    refine find?_eq_some_iff_append.mpr ⟨?_, before, after, shape, ?_⟩
    · simp
    grind [isPrefixOf_gentle]

/-- What ends every lexeme: the end of the text, or a bracket. -/
theorem gentle_bracket (bracket : c = '(' ∨ c = ')') (rest others : List Char) :
    Gentle rest (c :: others) := by
  have plain : isWord c = false ∧ secondCharacters.contains c = false := by
    rcases bracket with rfl | rfl <;> decide
  exact ⟨fun _ => by simpa using plain.1, .inr (by simpa using plain.2)⟩

/-- Texts that are put together at a bracket have the lexemes of both. -/
theorem Spelled.append {text : List Char} (spelled : Spelled text found)
    (bracket : c = '(' ∨ c = ')') {others : List Char} {further : List Lexeme}
    (behind : Spelled (c :: others) further) :
    Spelled (text ++ c :: others) (found ++ further) := by
  induction spelled with
  | blanks blanks => exact behind.gap blanks
  | @lexeme gap written rest lexeme later blanks isWritten ends _ ih =>
    rw [append_assoc, append_assoc]
    refine .lexeme blanks isWritten (ends.gentle isWritten ?_) ih
    cases rest with
    | nil => exact gentle_bracket bracket [] others
    | cons => exact .of_head? rfl

/-! Lexical analysis of a spelled text. -/

theorem runLength_append {inClass : Char → Bool} (run : List Char)
    (ends : rest.head?.any inClass = false) :
    runLength inClass (run ++ rest) = runLength inClass run := by
  have nothing : rest.takeWhile inClass = [] := by
    cases rest with
    | nil => rfl
    | cons c others => exact takeWhile_cons_of_neg (by simpa using ends)
  grind [runLength, takeWhile_append]

theorem isDigit_of_isNameStart (start : isNameStart c) : isDigit c = false := by
  grind [digit_not_name]

/-- Where no digit and no point stands, no number begins. -/
theorem numberLength_eq_zero (plain : isDigit c = false) (noPoint : c ≠ '.') (rest : List Char) :
    numberLength (c :: rest) = 0 := by
  have noHex : hexLength (c :: rest) = 0 := by
    rw [hexLength.eq_def]
    split
    next shape =>
      obtain ⟨rfl, -⟩ := List.cons.inj shape
      exact absurd plain (by decide)
    · rfl
  have whole : runLength isDigit (c :: rest) = 0 := by
    rw [runLength, takeWhile_cons_of_neg (by simp [plain])]
    rfl
  rw [numberLength_eq, plainLength, whole]
  grind

/-- Without a point behind its digits, a number that is not hexadecimal is its digits. -/
theorem plainLength_digits {text : List Char}
    (noPoint : (text.dropWhile isDigit).head? ≠ some '.') :
    plainLength text = runLength isDigit text := by grind [plainLength, drop_runLength]

theorem runLength_le (inClass : Char → Bool) (text : List Char) :
    runLength inClass text ≤ text.length :=
  (takeWhile_sublist inClass).length_le

theorem exponentLength_le (text : List Char) : exponentLength text ≤ text.length := by
  rw [exponentLength.eq_def]
  split
  next mark rest =>
    have bound (signs : Nat) :
        (if runLength isDigit (rest.drop signs) == 0 then 0
          else 1 + signs + runLength isDigit (rest.drop signs)) ≤ (mark :: rest).length := by
      have digits := runLength_le isDigit (rest.drop signs)
      rw [length_drop] at digits
      rw [length_cons]
      split
      · exact Nat.zero_le _
      next some =>
        rw [beq_iff_eq] at some
        omega
    grind
  · exact Nat.le_refl _

theorem numberLength_le (text : List Char) : numberLength text ≤ text.length := by
  have whole := runLength_le isDigit text
  have hex : hexLength text ≠ 0 → 2 + hexLength text ≤ text.length := by
    rw [hexLength.eq_def]
    split
    next mark rest => grind [runLength_le]
    · exact fun absurdity => absurd rfl absurdity
  have plain : plainLength text ≤ text.length := by
    rw [plainLength]
    split
    next rest behind =>
      have lengths := congrArg List.length behind
      grind [runLength_le, exponentLength_le]
    · exact whole
  grind [numberLength_eq]

section Runs

variable {run rest : List Char} (words : run.all isWord = true)
  (ends : rest.head?.any isWord = false) (noPoint : rest.head? ≠ some '.')

include ends

theorem hexLength_append : hexLength (run ++ rest) = hexLength run := by
  have short {first : Char} : hexLength (first :: rest) = 0 := by
    rw [hexLength.eq_def]
    split
    next mark _ shape =>
      obtain ⟨-, rfl⟩ := List.cons.inj shape
      refine if_neg fun marked => ?_
      rw [Bool.or_eq_true, beq_iff_eq, beq_iff_eq] at marked
      rw [head?_cons] at ends
      rcases marked with rfl | rfl <;> exact absurd ends (by decide)
    · rfl
  have empty : hexLength rest = 0 := by
    rw [hexLength.eq_def]
    split
    · rw [head?_cons] at ends
      exact absurd ends (by decide)
    · rfl
  rcases run with - | ⟨first, - | ⟨mark, others⟩⟩
  · exact empty
  · exact short.trans (by simp [hexLength])
  · have same := runLength_append others (head?_of_not_isWord ends fun _ => isWord_of_isHexDigit)
    by_cases zero : first = '0'
    · subst zero
      simp only [cons_append, hexLength, same]
    · simp [hexLength, zero]

include words noPoint

theorem plainLength_append : plainLength (run ++ rest) = plainLength run := by
  have solid {others : List Char} (within : ∀ c ∈ others, c ∈ run) :
      (others ++ rest).head? ≠ some '.' := by
    cases others with
    | nil => exact noPoint
    | cons c tail =>
      intro point
      have word := all_eq_true.mp words c (within c (by simp))
      rw [Option.some.inj point] at word
      exact absurd word (by decide)
  have noDigit := head?_of_not_isWord ends fun _ => isWord_of_isDigit
  have dropped : (run ++ rest).dropWhile isDigit = run.dropWhile isDigit ++ rest := by
    rw [← drop_runLength, ← drop_runLength, runLength_append run noDigit, drop_append_of_le_length]
    exact (takeWhile_sublist isDigit).length_le
  have within : ∀ c ∈ run.dropWhile isDigit, c ∈ run := fun _ =>
    (dropWhile_sublist isDigit).mem
  rw [plainLength_digits (dropped ▸ solid within), plainLength_digits, runLength_append run noDigit]
  grind

theorem numberLength_append : numberLength (run ++ rest) = numberLength run := by
  rw [numberLength_eq, numberLength_eq, hexLength_append ends, plainLength_append words ends noPoint]

/-- A number is found in the word that it is, whatever follows. -/
theorem frontLexeme?_append (present : numberLength run ≠ 0) :
    frontLexeme? (run ++ rest) = frontLexeme? run := by
  have within := numberLength_le run
  rw [frontLexeme?.eq_def, frontLexeme?.eq_def run]
  simp only [numberLength_append words ends noPoint, bne_iff_ne, ne_eq, present, not_false_eq_true,
    if_true]
  rw [take_append_of_le_length within, drop_append_of_le_length within,
    runLength_append _ (head?_of_not_isWord ends fun _ => isWord_of_isSuffix)]

end Runs

section Analysis

variable (expr : String)

theorem lexemesFrom_of_front {lexeme : Option Lexeme}
    (front : frontLexeme? (c :: rest) = some (lexeme, length)) :
    lexemesFrom expr (c :: rest) =
      (lexemesFrom expr (rest.drop (length - 1))).map (lexeme.toList ++ ·) := by
  rw [lexemesFrom, front]

theorem frontLexeme?_blank (blank : isBlank c) (rest : List Char) :
    frontLexeme? (c :: rest) = some (none, runLength isBlank (c :: rest)) := by
  have plain := plain_of_not_isWord (Include.isWord_of_isBlank blank)
  have noPoint : c ≠ '.' := by
    rintro rfl
    exact absurd blank (by decide)
  have noSymbol : symbols.find? (fun symbol => symbol.toList.isPrefixOf (c :: rest)) = none := by
    rw [find?_eq_none]
    intro symbol listed found
    obtain ⟨tail, shape⟩ := List.isPrefixOf_iff_prefix.mp found
    cases characters : symbol.toList with
    | nil => exact absurd characters (Lexeme.Written.symbol listed).ne_nil
    | cons first others =>
      rw [characters] at shape
      have same := (List.cons.inj shape).1
      have solid := (symbols_plain listed first (by simp [characters])).2.1
      rw [same, blank] at solid
      cases solid
  rw [frontLexeme?.eq_def, numberLength_eq_zero plain.1 noPoint]
  simp [plain.2, noSymbol, blank]

theorem lexemesFrom_blank_run (blank : isBlank c) (rest : List Char) :
    lexemesFrom expr (c :: rest) = lexemesFrom expr (rest.dropWhile isBlank) := by
  have length : runLength isBlank (c :: rest) - 1 = runLength isBlank rest := by
    rw [runLength, takeWhile_cons_of_pos blank, length_cons]
    rfl
  rw [lexemesFrom_of_front expr (frontLexeme?_blank blank rest), length, drop_runLength]
  cases lexemesFrom expr (rest.dropWhile isBlank) <;> rfl

theorem lexemesFrom_blank (blank : isBlank c) (rest : List Char) :
    lexemesFrom expr (c :: rest) = lexemesFrom expr rest := by
  rw [lexemesFrom_blank_run expr blank]
  cases rest with
  | nil => rfl
  | cons next others =>
    grind [isBlank, lexemesFrom_blank_run, dropWhile_cons_of_pos, dropWhile_cons_of_neg]

theorem lexemesFrom_gap {gap : List Char} (blanks : gap.all isBlank) (rest : List Char) :
    lexemesFrom expr (gap ++ rest) = lexemesFrom expr rest := by
  induction gap with
  | nil => rfl
  | cons c others ih =>
    rw [all_cons, Bool.and_eq_true] at blanks
    rw [cons_append, lexemesFrom_blank expr blanks.1, ih blanks.2]

theorem Lexeme.Written.front {lexeme : Lexeme} (isWritten : lexeme.Written written)
    (ends : lexeme.EndsBefore written rest) (noPoint : rest.head? ≠ some '.') :
    frontLexeme? (written ++ rest) = some (some lexeme, written.length) := by
  cases isWritten with
  | number words front =>
    rw [frontLexeme?_append words ends noPoint (frontLexeme?_number front).1, front]
  | @name first others start words =>
    have plain : first ≠ '.' := by
      rintro rfl
      exact absurd start (by decide)
    have taken : (others ++ rest).takeWhile isWord = others := by
      have ends : rest.head?.any isWord = false := ends
      rw [takeWhile_append_of_pos (all_eq_true.mp words)]
      cases rest with
      | nil => simp
      | cons c tail => simp_all
    rw [cons_append, frontLexeme?.eq_def, numberLength_eq_zero (isDigit_of_isNameStart start) plain]
    simp [start, taken]
  | @symbol text listed =>
    obtain ⟨first, others, shape⟩ := exists_cons_of_ne_nil (Lexeme.Written.symbol listed).ne_nil
    obtain ⟨plain, -, isPoint⟩ := symbols_plain listed first (by simp [shape])
    have front : symbols.find? (fun symbol => symbol.toList.isPrefixOf (text.toList ++ rest)) =
      some text := ends
    rw [shape, cons_append] at front
    rw [shape, cons_append, frontLexeme?.eq_def,
      numberLength_eq_zero (plain_of_not_isWord plain).1 isPoint]
    simp only [bne_self_eq_false, Bool.false_eq_true, if_false, (plain_of_not_isWord plain).2, front]
    rw [← shape, String.length_toList]

/-- The lexical analysis of a spelled text gives its lexemes. -/
theorem Spelled.lexemes {text : List Char} (spelled : Spelled text found) :
    lexemesFrom expr text = .ok found := by
  induction spelled with
  | @blanks gap blanks =>
    have skipped := lexemesFrom_gap expr blanks []
    rw [append_nil] at skipped
    rw [skipped, lexemesFrom]
  | @lexeme gap written rest lexeme others blanks isWritten ends further ih =>
    have noPoint : rest.head? ≠ some '.' := fun point =>
      further.noPoint (mem_of_mem_head? point)
    have front := isWritten.front ends noPoint
    obtain ⟨c, tail, rfl⟩ := exists_cons_of_ne_nil isWritten.ne_nil
    rw [cons_append] at front
    rw [lexemesFrom_gap expr blanks, cons_append, lexemesFrom_of_front expr front,
      length_cons, Nat.add_sub_cancel, List.drop_left, ih]
    rfl

end Analysis

/-- A number does not start like a name. -/
theorem isNameStart_of_number {number : String}
    (front : frontLexeme? (c :: rest) = some (some (.number number), length))
    (word : isWord c) : isNameStart c = false := by
  have noPoint : c ≠ '.' := by
    rintro rfl
    exact absurd word (by decide)
  cases start : isNameStart c with
  | false => rfl
  | true =>
    exact absurd (numberLength_eq_zero (isDigit_of_isNameStart start) noPoint rest)
      (frontLexeme?_number front).1

/-! Texts that the lexical analysis accepts. -/

def Lexeme.isOperand : Lexeme → Bool
  | .symbol _ => false
  | _ => true

/-- An operand is followed by a symbol. -/
def Apart (lexeme next : Lexeme) : Prop :=
  lexeme.isOperand = true → next.isOperand = false

/-- The grammar puts a symbol between any two operands. -/
theorem Derives.apart {start : Nonterminal} {tree : Tree} (derived : Derives start found tree) :
    found.IsChain Apart := by
  have ahead {symbol : String} {others : List Lexeme} (chain : others.IsChain Apart) :
      (Lexeme.symbol symbol :: others).IsChain Apart :=
    chain.cons fun _ _ operand => by cases operand
  have between {before others : List Lexeme} {symbol : String} (left : before.IsChain Apart)
      (right : others.IsChain Apart) : (before ++ .symbol symbol :: others).IsChain Apart := by
    refine left.append (ahead right) fun _ _ next first _ => ?_
    obtain rfl := Option.some.inj first
    rfl
  induction derived with
  | number => exact .singleton _
  | name => exact .singleton _
  | group _ inside => exact ahead (between inside .nil)
  | unary _ _ inside => exact ahead inside
  | tightest _ same => exact same
  | single _ same => exact same
  | binary _ _ _ left right => exact between left right
  | plain _ same => exact same
  | alternative _ _ _ test whenTrue whenFalse => exact between test (between whenTrue whenFalse)

/-- A text that begins with a character of a word begins with an operand. -/
theorem Spelled.isOperand_head {text : List Char} (spelled : Spelled text found)
    (word : text.head?.any isWord) : found.head?.any Lexeme.isOperand := by
  have solid {gap rest : List Char} (blanks : gap.all isBlank)
      (word : (gap ++ rest).head?.any isWord) : gap = [] := by
    cases gap with
    | nil => rfl
    | cons c others => simp_all [Include.isWord_of_isBlank]
  cases spelled with
  | blanks blanks =>
    obtain rfl := @solid _ [] blanks (by rwa [append_nil])
    cases word
  | lexeme blanks isWritten =>
    cases isWritten with
    | number => rfl
    | name => rfl
    | @symbol text listed =>
      obtain ⟨c, others, shape⟩ := exists_cons_of_ne_nil (Lexeme.Written.symbol listed).ne_nil
      grind [symbols_plain]

theorem frontLexeme?_cases {text : List Char} {lexeme : Option Lexeme}
    (front : frontLexeme? text = some (lexeme, length)) :
    (numberLength text ≠ 0 ∧ lexeme = some (.number (String.ofList (text.take (numberLength text)))) ∧
      length = numberLength text + runLength isSuffix (text.drop (numberLength text))) ∨
    (∃ first rest, text = first :: rest ∧ isNameStart first ∧
      lexeme = some (.name (String.ofList (first :: rest.takeWhile isWord))) ∧
      length = (first :: rest.takeWhile isWord).length) ∨
    (∃ symbol, symbols.find? (fun symbol => symbol.toList.isPrefixOf text) = some symbol ∧
      lexeme = some (.symbol symbol) ∧ length = symbol.length) ∨
    (lexeme = none ∧ length = runLength isBlank text ∧ text.head?.any isBlank) := by
  rw [frontLexeme?.eq_def] at front
  dsimp only at front
  split at front
  next present => grind
  · split at front
    · cases front
    next first rest _ =>
      split at front
      next start => grind
      · split at front
        next symbol found => grind
        grind

theorem frontLexeme?_pos {text : List Char} {lexeme : Option Lexeme}
    (front : frontLexeme? text = some (lexeme, length)) : 0 < length := by
  rcases frontLexeme?_cases front with ⟨present, -, rfl⟩ | ⟨first, rest, -, -, -, rfl⟩ |
    ⟨symbol, found, -, rfl⟩ | ⟨-, rfl, blank⟩
  · omega
  · exact Nat.succ_pos _
  · exact length_pos_iff.mpr (Lexeme.Written.symbol (mem_of_find?_eq_some found)).ne_nil
  · cases text with
    | nil => cases blank
    | cons c rest =>
      rw [runLength, takeWhile_cons_of_pos (by simpa using blank)]
      exact Nat.succ_pos _

theorem IntegerText.isWord {text : List Char} (integer : IntegerText text) :
    ∀ c ∈ text, isWord c := by
  intro c mem
  cases integer with
  | digits _ digits => exact isWord_of_isDigit (digits c mem)
  | hexadecimal marked _ digits =>
    rcases mem_cons.mp mem with rfl | mem
    · decide
    rcases mem_cons.mp mem with rfl | mem
    · rcases marked with rfl | rfl <;> decide
    · exact isWord_of_isHexDigit (digits c mem)

/-- The characters of a front lexeme write it and end it, where a number does not run into
a word. -/
theorem written_of_front {text : List Char} {lexeme : Lexeme}
    (front : frontLexeme? text = some (some lexeme, length)) (integer : withoutPoint lexeme)
    (noPoint : '.' ∉ text.drop length)
    (ends : lexeme.isOperand → (text.drop length).head?.any isWord = false) :
    lexeme.Written (text.take length) ∧
      lexeme.EndsBefore (text.take length) (text.drop length) := by
  have split := take_append_drop length text
  rcases frontLexeme?_cases front with ⟨present, same, total⟩ | ⟨first, rest, rfl, start, same, total⟩ |
    ⟨symbol, found, same, total⟩ | ⟨absurdity, -⟩
  · obtain rfl := Option.some.inj same
    have plain : '.' ∉ text.take (numberLength text) := by
      simpa [withoutPoint] using integer
    have words : (text.take length).all isWord := by
      rw [total, take_add, take_runLength, all_append, Bool.and_eq_true]
      refine ⟨all_eq_true.mpr (integerText_of_numberLength present plain).isWord, ?_⟩
      refine all_eq_true.mpr fun c mem => ?_
      exact isWord_of_isSuffix (mem_takeWhile isSuffix _ c mem)
    have head : (text.drop length).head? ≠ some '.' := fun point =>
      noPoint (mem_of_mem_head? point)
    have sameLength := numberLength_append words (ends rfl) head
    rw [split] at sameLength
    have sameFront := frontLexeme?_append words (ends rfl) head (sameLength ▸ present)
    rw [split, front] at sameFront
    have bound : length ≤ text.length := by
      have whole := numberLength_le text
      have suffix := runLength_le isSuffix (text.drop (numberLength text))
      rw [length_drop] at suffix
      omega
    refine ⟨.number words ?_, ends rfl⟩
    rw [← sameFront, length_take_of_le bound]
  · obtain rfl := Option.some.inj same
    have taken : (first :: rest).take length = first :: rest.takeWhile isWord := by
      rw [total, length_cons]
      exact congrArg _ (take_runLength isWord rest)
    rw [taken]
    exact ⟨.name start (all_eq_true.mpr (mem_takeWhile isWord rest)), ends rfl⟩
  · obtain rfl := Option.some.inj same
    have listed := mem_of_find?_eq_some found
    have leads : symbol.toList <+: text := by
      have matched := find?_some found
      exact List.isPrefixOf_iff_prefix.mp matched
    have taken : text.take length = symbol.toList := by
      rw [total]
      exact (List.prefix_iff_eq_take.mp leads).symm
    refine ⟨taken ▸ .symbol listed, ?_⟩
    rw [Lexeme.EndsBefore, split]
    exact found
  · cases absurdity

/-- An analysed text is spelled by its lexemes, if these are integers that stand apart. -/
theorem spelled_of_lexemesFrom {expr : String} {text : List Char}
    (analysed : lexemesFrom expr text = .ok found) (integers : found.all withoutPoint)
    (apart : found.IsChain Apart) : Spelled text found := by
  fun_induction lexemesFrom expr text generalizing found with
  | case1 => cases analysed; exact .blanks rfl
  | case2 => cases analysed
  | case3 c rest lexeme length front ih =>
    cases further : lexemesFrom expr (rest.drop (length - 1)) with
    | error fault => rw [further] at analysed; cases analysed
    | ok others =>
      rw [further] at analysed
      obtain rfl := Except.ok.inj analysed
      rw [all_append, Bool.and_eq_true] at integers
      have behind := ih further integers.2 apart.right_of_append
      have dropped : (c :: rest).drop length = rest.drop (length - 1) := by
        obtain ⟨before, rfl⟩ := Nat.exists_eq_add_one_of_ne_zero (frontLexeme?_pos front).ne'
        rfl
      rw [← dropped] at behind
      rw [← take_append_drop length (c :: rest)]
      cases lexeme with
      | none =>
        refine behind.gap ?_
        rcases frontLexeme?_cases front with ⟨-, absurdity, -⟩ | ⟨_, _, -, -, absurdity, -⟩ |
          ⟨_, -, absurdity, -⟩ | ⟨-, rfl, -⟩
        · cases absurdity
        · cases absurdity
        · cases absurdity
        · rw [take_runLength]
          exact all_eq_true.mpr (mem_takeWhile isBlank _)
      | some lexeme =>
        have ends (operand : lexeme.isOperand) :
            ((c :: rest).drop length).head?.any isWord = false := by
          cases word : ((c :: rest).drop length).head?.any isWord with
          | false => rfl
          | true =>
            have isOperand := behind.isOperand_head word
            cases others with
            | nil => cases isOperand
            | cons next later =>
              rw [head?_cons, Option.any_some, apart.rel_head? rfl operand] at isOperand
              cases isOperand
        obtain ⟨isWritten, endsBefore⟩ :=
          written_of_front front (by simpa using integers.1) behind.noPoint ends
        exact @Spelled.lexeme [] _ _ _ _ rfl isWritten endsBefore behind

end WebShader.Condition
