import WebShader.Proofs.Token.Machine

/-!
Contract: the lexical classes take the longest parts that machines accept.

Owns: the mode that each class starts in, the laws of every class, and from them
the laws of `frontToken`.

Cutting a text behind the measured part does not change the measure, and a
measure that succeeds on a text succeeds on every longer one. Together they say
that the front token of a text is also the front token of each part of the text
that holds it. The long punctuators are a table and have laws of their own.
-/

namespace WebShader.Token

open List Text

variable {mode later : Mode} {c : Char} {front rest taken text : List Char} {length : Nat}
  {classes : List (TokenKind × (List Char → Option Nat))}
  {inClass : Char → Bool}

/-! Runs. -/

theorem runLength_cons (inClass : Char → Bool) (c : Char) (rest : List Char) :
    runLength inClass (c :: rest) = if inClass c then runLength inClass rest + 1 else 0 := by
  cases inside : inClass c <;> simp [runLength, inside]

theorem drop_runLength (inClass : Char → Bool) (text : List Char) :
    text.drop (runLength inClass text) = text.dropWhile inClass := by
  induction text with
  | nil => rfl
  | cons c others ih => cases mem : inClass c <;> simp [runLength_cons, mem, ih]

theorem runLength_ne_zero : runLength inClass text ≠ 0 ↔ text.head?.any inClass := by
  cases text with
  | nil => simp [runLength]
  | cons c rest => cases isIn : inClass c <;> simp [runLength, isIn]

theorem runLength_append_all (all : ∀ c ∈ front, inClass c) (text : List Char) :
    runLength inClass (front ++ text) = front.length + runLength inClass text := by
  rw [runLength, takeWhile_append_of_pos all, length_append]
  rfl

/-! First characters. -/

theorem newline?_cases (taken : newline? text = some length) :
    (∃ rest, text = '\n' :: rest ∧ length = 1) ∨
      ∃ rest, text = '\r' :: '\n' :: rest ∧ length = 2 := by
  unfold newline? at taken
  grind

theorem newline?_head (ends : newline? (c :: rest) ≠ none) :
    c = '\n' ∨ c = '\r' ∧ rest.head? = some '\n' := by
  obtain ⟨length, found⟩ := Option.ne_none_iff_exists'.mp ends
  grind [newline?_cases]

theorem blankLength_cons (plain : c ≠ '\\') (rest : List Char) :
    blankLength (c :: rest) = if isInlineBlank c then blankLength rest + 1 else 0 := by
  rw [blankLength] <;> simp_all

/-- A backslash counts as blank together with the line end after it. -/
theorem blankLength_backslash (rest : List Char) :
    blankLength ('\\' :: rest) =
      match newline? rest with
      | some length => blankLength (rest.drop length) + 1 + length
      | none => 0 := by
  unfold newline?
  split
  · grind [blankLength]
  · next shape =>
      split at shape
      · cases shape
      · cases shape
      simp_all [blankLength, isInlineBlank]

theorem comment?_cases (measured : comment? text = some length) :
    (∃ tail, text = '/' :: '/' :: tail ∧ length = 2 + runLength (· != '\n') tail) ∨
      ∃ tail, text = '/' :: '*' :: tail ∧ length = 2 + blockCommentLength tail := by
  unfold comment? at measured
  grind

namespace Mode

variable (text : List Char)

theorem longest_done : done.longest text = some 0 := by
  cases text <;> rfl

/-- A mode that accepts and stays as long as characters of a class follow. -/
theorem longest_loop (accepts : mode.accepts)
    (loops : ∀ c, mode.next c = if inClass c then some mode else none) (text : List Char) :
    mode.longest text = some (runLength inClass text) := by
  induction text with
  | nil => exact here_of_accepts accepts
  | cons c rest ih => grind [longest, here_of_accepts, runLength_cons]

theorem longest_block :
    block.longest text = some (blockCommentLength text) ∧
      (star.longest text).map (· + 1) = some (blockCommentLength ('*' :: text)) := by
  induction text with
  | nil => exact ⟨rfl, rfl⟩
  | cons c rest ih =>
    have same : c ≠ '/' → star.longest (c :: rest) = block.longest (c :: rest) := by
      intro other
      simp [longest, next, other, here, accepts]
    have first : block.longest (c :: rest) = some (blockCommentLength (c :: rest)) := by
      by_cases isStar : c = '*'
      · subst isStar
        simp [longest, next, ih.2]
      · simp_all [blockCommentLength, longest, next]
    refine ⟨first, ?_⟩
    by_cases slash : c = '/'
    · subst slash
      simp [longest, next, longest_done, blockCommentLength]
    simp_all [blockCommentLength]

theorem comment?_eq : comment? text = comment.longest text := by
  match text with
  | [] => rfl
  | [c] => by_cases slash : c = '/' <;> simp [comment?, longest, next, slash, here, accepts]
  | c :: d :: rest =>
    have inLine : line.longest rest = some (runLength (· != '\n') rest) :=
      longest_loop rfl (fun c => by by_cases feed : c = '\n' <;> simp [next]) rest
    unfold comment?
    split
    next shape =>
      cases shape
      simp [longest, next, inLine]
      omega
    next shape =>
      cases shape
      simp [longest, next, (longest_block rest).1]
      omega
    next notLine notBlock =>
      by_cases slash : c = '/'
      · simp_all [longest, next, here, accepts]
      · simp [longest, next, slash, here, accepts]

theorem longest_quoted : quoted.longest text = some (stringTailLength text) := by
  fun_induction stringTailLength text with
  | case1 c rest ih => simp [longest, next, ih]
  | case2 c rest notEscape isQuote =>
    obtain rfl : c = '"' := by simpa using isQuote
    simp [longest, next, longest_done]
  | case3 c rest notEscape notQuote stops =>
    by_cases backslash : c = '\\'
    · subst backslash
      cases rest with
      | nil => rfl
      | cons d others => exact absurd rfl (notEscape d others rfl)
    simp_all [longest, next, here, accepts]
  | case4 c rest notEscape notQuote continues ih => simp_all [longest, next]
  | case5 => rfl

theorem string?_eq : string? text = string.longest text := by
  cases text with
  | nil => rfl
  | cons c rest =>
    by_cases quote : c = '"'
    · subst quote
      simp [string?, longest, next, longest_quoted, Nat.add_comm]
    · simp [string?, longest, next, quote, here, accepts]

theorem newline?_eq : newline? text = newline.longest text := by
  unfold newline?
  split
  · simp [longest, next, longest_done]
  · simp [longest, next, longest_done]
  next noFeed noReturn =>
    rcases text with _ | ⟨c, _ | ⟨d, rest⟩⟩
    · rfl
    · by_cases carriage : c = '\r' <;> simp_all [longest, next, here, accepts]
    · by_cases carriage : c = '\r' <;> simp_all [longest, next, here, accepts]

theorem longest_blank : blank.longest text = some (blankLength text) := by
  fun_induction blankLength text with
  | case1 rest ih => simp [longest, next, ih]
  | case2 rest ih => simp [longest, next, ih]
  | case3 c rest notCarriage notFeed isBlank ih =>
    have plain : c ≠ '\\' := by
      rintro rfl
      cases isBlank
    simp [longest, next, plain, isBlank, ih]
  | case4 c rest notCarriage notFeed notBlank =>
    by_cases backslash : c = '\\'
    · subst backslash
      have stops : Mode.backslash.longest rest = none := by
        rcases rest with _ | ⟨d, _ | ⟨e, more⟩⟩
        · rfl
        · by_cases carriage : d = '\r' <;> simp_all [longest, next, here, accepts]
        · by_cases carriage : d = '\r' <;> simp_all [longest, next, here, accepts]
      simp [longest, next, stops, here, accepts]
    · simp [longest, next, backslash, notBlank, here, accepts]
  | case5 => rfl

theorem longest_backslash :
    backslash.longest text = (newline? text).map fun length =>
      length + blankLength (text.drop length) := by
  unfold newline?
  split
  · simp [longest, next, longest_blank, Nat.add_comm]
  · simp [longest, next, longest_blank]
    omega
  next noFeed noReturn =>
    rcases text with _ | ⟨c, _ | ⟨d, rest⟩⟩
    · rfl
    · by_cases carriage : c = '\r' <;> simp_all [longest, next, here, accepts]
    · by_cases carriage : c = '\r' <;> simp_all [longest, next, here, accepts]

theorem whitespace?_eq : whitespace? text = whitespace.longest text := by
  cases text with
  | nil => rfl
  | cons c rest =>
    have blank := longest_blank (c :: rest)
    rw [longest] at blank ⊢
    rw [whitespace?, show whitespace.next c = Mode.blank.next c from rfl]
    generalize (Mode.blank.next c).bind (·.longest rest) = longer at blank ⊢
    cases longer with
    | none =>
      rw [← Option.some.inj blank]
      rfl
    | some length =>
      rw [← Option.some.inj blank]
      rfl

end Mode

/-! Numbers. -/

namespace Mode

variable (text : List Char)

theorem longest_suffix (c : Char) (rest : List Char) :
    (((suffix c).bind (·.longest rest)).map (· + 1)).or (some 0) =
      some (floatSuffixLength (c :: rest)) := by
  have second (upper : Bool) : (longSuffix upper).longest rest =
      if rest.head? = some (if upper then 'F' else 'f') then some 1 else none := by
    cases rest with
    | nil => rfl
    | cons d others => grind [longest, next, longest_done, here, accepts]
  unfold suffix
  split
  next lower =>
    subst lower
    rw [Option.bind_some, second]
    cases rest with
    | nil => rfl
    | cons d others => by_cases same : d = 'f' <;> simp [floatSuffixLength, same]
  next notLower =>
    split
    next upper =>
      subst upper
      rw [Option.bind_some, second]
      cases rest with
      | nil => rfl
      | cons d others => by_cases same : d = 'F' <;> simp [floatSuffixLength, same]
    next notUpper =>
      rw [floatSuffixLength]
      · split <;> simp [longest_done]
      · simp [notLower]
      · simp [notUpper]

theorem longest_exponent :
    exponent.longest text = some (runLength isDigit text +
      floatSuffixLength (text.drop (runLength isDigit text))) := by
  induction text with
  | nil => rfl
  | cons c rest ih => grind [longest, next, runLength_cons, longest_suffix, here, accepts]

def floatEnd (text : List Char) : Nat :=
  exponentLength text + floatSuffixLength (text.drop (exponentLength text))

/-- A mode that takes the first character of a run. -/
theorem longest_first (later : Mode) (rejects : mode.accepts = false)
    (opens : ∀ c, mode.next c = if inClass c then some later else none)
    (accepts : later.accepts) (loops : ∀ c, inClass c → later.next c = some later)
    (text : List Char) :
    mode.longest text = if runLength inClass text = 0 then none else later.longest text := by
  have none : mode.here = none := if_neg (by simp [rejects])
  cases text with
  | nil => exact none
  | cons c rest =>
    rw [longest, opens, none, runLength_cons]
    cases inside : inClass c with
    | false => rfl
    | true =>
      obtain ⟨length, found⟩ := Option.ne_none_iff_exists'.mp (longest_ne_none accepts rest)
      simp [longest, loops c inside, found]

/-- The sign that may follow the mark of an exponent. -/
def signLength : List Char → Nat
  | sign :: _ => if sign == '-' || sign == '+' then 1 else 0
  | [] => 0

theorem longest_exponentMark :
    exponentMark.longest text =
      (exponentSign.longest (text.drop (signLength text))).map (signLength text + ·) := by
  cases text with
  | nil => rfl
  | cons sign rest =>
    by_cases signed : sign = '-' ∨ sign = '+'
    · simp_all [signLength, longest, next, here, accepts, Nat.add_comm]
    simp_all [signLength, longest, next, here, accepts]

theorem exponentLength_unmarked (other : ¬(c = 'e' ∨ c = 'E')) (rest : List Char) :
    exponentLength (c :: rest) = 0 := by
  cases rest <;> exact if_neg (by simpa using other)

/-- The mark of an exponent counts only with digits behind it. -/
theorem longest_marked {mark : Char} (isMark : mark = 'e' ∨ mark = 'E') (rest : List Char) :
    (exponentMark.longest rest).map (· + 1) =
      if exponentLength (mark :: rest) = 0 then none else some (floatEnd (mark :: rest)) := by
  have length : exponentLength (mark :: rest) =
      if runLength isDigit (rest.drop (signLength rest)) = 0 then 0
      else signLength rest + runLength isDigit (rest.drop (signLength rest)) + 1 := by
    have shape : exponentLength (mark :: rest) =
        if runLength isDigit (rest.drop (signLength rest)) == 0 then 0
        else 1 + signLength rest + runLength isDigit (rest.drop (signLength rest)) := by
      cases rest <;> exact if_pos (by simpa using isMark)
    split <;> simp_all <;> omega
  rw [longest_exponentMark,
    longest_first exponent rfl (fun _ => rfl) rfl fun _ digit => if_pos digit, floatEnd, length]
  split
  · rfl
  next present =>
    rw [drop_succ_cons, longest_exponent, ← drop_drop]
    grind

/-- What follows the first digits of a number. -/
def wholeEnd : List Char → Nat
  | '.' :: rest => 1 + runLength isDigit rest + floatEnd (rest.drop (runLength isDigit rest))
  | text => if exponentLength text = 0 then unsignedSuffixLength text else floatEnd text

theorem longest_fraction :
    fraction.longest text = some (runLength isDigit text +
      floatEnd (text.drop (runLength isDigit text))) := by
  induction text with
  | nil => rfl
  | cons c rest ih =>
    rw [longest, next, runLength_cons]
    cases digit : isDigit c with
    | true =>
      simp [ih]
      omega
    | false =>
      by_cases isMark : c = 'e' ∨ c = 'E'
      · simp only [Bool.false_eq_true, if_false, if_pos isMark, Option.bind_some, longest_marked isMark]
        split
        next absent =>
          have suffixed := longest_suffix c rest
          have none : suffix c = none := by rcases isMark with rfl | rfl <;> rfl
          grind [floatEnd, here, accepts]
        · simp
      grind [exponentLength_unmarked, longest_suffix, floatEnd, here, accepts]

theorem longest_digits :
    digits.longest text = some (runLength isDigit text +
      wholeEnd (text.drop (runLength isDigit text))) := by
  induction text with
  | nil => rfl
  | cons c rest ih =>
    rw [longest, next, afterDigit, runLength_cons]
    cases digit : isDigit c with
    | true =>
      simp [ih]
      omega
    | false =>
      by_cases point : c = '.'
      · subst point
        simp [longest_fraction, wholeEnd]
        omega
      · have other : wholeEnd (c :: rest) = if exponentLength (c :: rest) = 0 then
            unsignedSuffixLength (c :: rest) else floatEnd (c :: rest) := by
          rw [wholeEnd]
          simp [point]
        by_cases isMark : c = 'e' ∨ c = 'E'
        · have notUnsigned : unsignedSuffixLength (c :: rest) = 0 := by
            rcases isMark with rfl | rfl <;> rfl
          simp only [Bool.false_eq_true, if_false, if_pos isMark, Option.bind_some,
            longest_marked isMark, if_neg point]
          grind [here, accepts]
        grind [exponentLength_unmarked, unsignedSuffixLength, longest_done, here, accepts]

end Mode

namespace Mode

theorem longest_hexDigits (text : List Char) :
    hexDigits.longest text = some (runLength isHexDigit text +
      unsignedSuffixLength (text.drop (runLength isHexDigit text))) := by
  induction text with
  | nil => rfl
  | cons c rest ih =>
    grind [longest, next, runLength_cons, unsignedSuffixLength, longest_done, here, accepts]

/-- A decimal number with a point behind its first digits. -/
theorem decimalNumber?_point {text rest : List Char}
    (point : text.drop (runLength isDigit text) = '.' :: rest)
    (present : runLength isDigit text ≠ 0 ∨ runLength isDigit rest ≠ 0) :
    decimalNumber? text = some (runLength isDigit text + wholeEnd ('.' :: rest)) := by
  have pointed : pointedLength text = runLength isDigit text + 1 + runLength isDigit rest := by
    simp only [pointedLength, point]
    rw [if_neg]
    simp only [Bool.and_eq_true, beq_iff_eq]
    omega
  have behind : text.drop (runLength isDigit text + 1 + runLength isDigit rest) =
      rest.drop (runLength isDigit rest) := by
    rw [← drop_drop, ← drop_drop, point, drop_one, tail_cons]
  have nonzero : runLength isDigit text + 1 + runLength isDigit rest ≠ 0 := by omega
  simp only [decimalNumber?, pointed, beq_eq_false_iff_ne.mpr nonzero,
    Bool.false_and, Bool.false_eq_true, if_false, behind, wholeEnd, floatEnd, ← drop_drop]
  congr 1
  omega

theorem decimalNumber?_whole {text : List Char} (present : runLength isDigit text ≠ 0) :
    decimalNumber? text = some (runLength isDigit text +
      wholeEnd (text.drop (runLength isDigit text))) := by
  by_cases point : ∃ rest, text.drop (runLength isDigit text) = '.' :: rest
  · grind [decimalNumber?_point]
  · have noPoint := not_exists.mp point
    have pointed : pointedLength text = 0 := by simp only [pointedLength]
    have ending : wholeEnd (text.drop (runLength isDigit text)) =
        if exponentLength (text.drop (runLength isDigit text)) = 0 then
          unsignedSuffixLength (text.drop (runLength isDigit text))
        else floatEnd (text.drop (runLength isDigit text)) := by
      rw [wholeEnd]
      exact noPoint
    grind [decimalNumber?, floatEnd, drop_drop]

theorem number?_eq (text : List Char) : number? text = number.longest text := by
  cases text with
  | nil => rfl
  | cons c rest =>
    by_cases digit : isDigit c = true
    · have whole : runLength isDigit (c :: rest) = runLength isDigit rest + 1 := by
        rw [runLength_cons, if_pos digit]
      have decimal : decimalNumber? (c :: rest) = (digits.longest rest).map (· + 1) := by
        rw [decimalNumber?_whole (by omega), whole, drop_succ_cons, longest_digits]
        simp only [Option.map_some, Option.some.injEq]
        omega
      by_cases isZero : c = '0'
      · subst isZero
        have step : number.longest ('0' :: rest) = (zero.longest rest).map (· + 1) := by
          simp [longest, next, here, accepts]
        cases rest with
        | nil => rfl
        | cons mark more =>
          by_cases isMark : mark = 'x' ∨ mark = 'X'
          · have marked : (mark == 'x' || mark == 'X') := by simpa using isMark
            have single : decimalNumber? ('0' :: mark :: more) = some 1 := by
              rcases isMark with rfl | rfl <;> rfl
            have hex : zero.longest (mark :: more) =
                ((hexMark.longest more).map (· + 1)).or (some 0) := by
              simp [longest, next, isMark, here, accepts]
            rw [number?, step, hex, hexNumber?,
              longest_first hexDigits rfl (fun _ => rfl) rfl fun _ digit => if_pos digit,
              longest_hexDigits]
            grind
          grind [hexNumber?, longest, next, here, accepts, number?]
      simp_all [hexNumber?, number?, longest, next, here, accepts]
    · have whole : runLength isDigit (c :: rest) = 0 := by
        rw [runLength_cons, if_neg digit]
      have hex : hexNumber? (c :: rest) = none := by
        have notZero : c ≠ '0' := by rintro rfl; exact digit (by decide)
        cases rest <;> simp [hexNumber?, notZero]
      rw [number?, hex]
      by_cases point : c = '.'
      · subst point
        have step : number.longest ('.' :: rest) = (Mode.point.longest rest).map (· + 1) := by
          simp [longest, next, digit, here, accepts]
        rw [step, longest_first fraction rfl (fun _ => rfl) rfl fun _ digit => if_pos digit]
        split
        next none => simp [decimalNumber?, pointedLength, whole, none]
        next present =>
          rw [@decimalNumber?_point _ rest (by rfl) (.inr present), longest_fraction, wholeEnd]
          grind
      · have pointed : pointedLength (c :: rest) = 0 := by
          simp [pointedLength, whole, point]
        have notZero : c ≠ '0' := by rintro rfl; exact digit (by decide)
        simp [decimalNumber?, pointed, whole, longest, next, digit, notZero, point, here, accepts]

end Mode

/-! Words and directives. -/

namespace Mode

variable (text : List Char)

theorem longest_word : word.longest text = some (runLength Text.isWord text) :=
  longest_loop rfl (fun _ => rfl) text

theorem ident?_eq : ident? text = ident.longest text := by
  cases text with
  | nil => rfl
  | cons c rest =>
    cases first : isNameStart c <;>
      simp [ident?, longest, next, first, longest_word, here, accepts, Nat.add_comm]

theorem longest_hash :
    hash.longest text = (ident? (text.dropWhile isGap)).map (runLength isGap text + ·) := by
  induction text with
  | nil => rfl
  | cons c rest ih =>
    rw [longest, next, runLength_cons]
    cases gap : isGap c with
    | true =>
      cases named : ident? (rest.dropWhile isGap) with
      | none => simp [gap, ih, named, here, accepts]
      | some length =>
        simp [gap, ih, named]
        omega
    | false => cases first : isNameStart c <;> simp [gap, ident?, first, longest_word, here, accepts, Nat.add_comm]

theorem directive?_eq : directive? text = directive.longest text := by
  unfold directive?
  split
  next rest =>
    have step : directive.longest ('#' :: rest) = (hash.longest rest).map (· + 1) := by
      simp [longest, next, here, accepts]
    rw [step, longest_hash, ← drop_runLength, Option.map_map]
    show (ident? (rest.drop (runLength isGap rest))).map (1 + runLength isGap rest + ·) = _
    congr 1
    grind
  next notHash =>
    cases text with
    | nil => rfl
    | cons c rest => simp_all [longest, next, here, accepts]

end Mode

/-! Laws. -/

/-- The laws of a measure. -/
structure Lawful (measure : List Char → Option Nat) : Prop where
  positive : ∀ {text length}, measure text = some length → 0 < length
  bounded : ∀ {text length}, measure text = some length → length ≤ text.length
  cut : ∀ {front rest length}, measure (front ++ rest) = some length →
    length ≤ front.length → measure front = some length
  extend : ∀ {front length} (rest : List Char), measure front = some length →
    ∃ longer, measure (front ++ rest) = some longer

theorem Lawful.none_of_append {measure : List Char → Option Nat} (lawful : Lawful measure)
    (fails : measure (front ++ rest) = none) : measure front = none := by
  cases value : measure front with
  | none => rfl
  | some length =>
    obtain ⟨longer, found⟩ := lawful.extend rest value
    rw [fails] at found
    cases found

theorem Mode.lawful (rejects : mode.accepts = false) : Lawful mode.longest where
  positive := by
    intro text length found
    apply Nat.pos_of_ne_zero
    rintro rfl
    rw [accepts_of_longest found] at rejects
    cases rejects
  bounded := longest_bounded
  cut := longest_cut
  extend := longest_extend

theorem longPunctuators_length : ∀ punctuator ∈ longPunctuators,
    2 ≤ punctuator.length ∧ punctuator.length ≤ 3 := by
  decide

theorem exists_of_longPunct? (taken : longPunct? text = some length) :
    ∃ punctuator, longPunctuators.find? (·.toList.isPrefixOf text) = some punctuator ∧
      punctuator ∈ longPunctuators ∧ punctuator.toList <+: text ∧ punctuator.length = length := by
  obtain ⟨punctuator, found, same⟩ := Option.map_eq_some_iff.mp taken
  grind

theorem longPunct?_lawful : Lawful longPunct? where
  positive := by
    intro text length taken
    obtain ⟨punctuator, -, listed, -, rfl⟩ := exists_of_longPunct? taken
    exact Nat.lt_of_succ_lt (longPunctuators_length punctuator listed).1
  bounded := by
    intro text length taken
    obtain ⟨punctuator, -, -, opens, rfl⟩ := exists_of_longPunct? taken
    exact opens.length_le
  cut := by
    intro front rest length taken within
    obtain ⟨punctuator, found, -, opens, rfl⟩ := exists_of_longPunct? taken
    rw [← String.length_toList] at within
    obtain ⟨-, before, after, shape, others⟩ := find?_eq_some_iff_append.mp found
    have same : longPunctuators.find? (·.toList.isPrefixOf front) = some punctuator := by
      refine find?_eq_some_iff_append.mpr ⟨?_, before, after, shape, fun other mem => ?_⟩
      · grind [List.prefix_of_prefix_length_le]
      · grind
    rw [longPunct?, same]
    rfl
  extend := by
    intro front length rest taken
    obtain ⟨punctuator, -, listed, opens, -⟩ := exists_of_longPunct? taken
    apply Option.ne_none_iff_exists'.mp
    intro absent
    have fails := find?_eq_none.mp (Option.map_eq_none_iff.mp absent) punctuator listed
    grind

theorem lexicalClasses_lawful : ∀ lexicalClass ∈ lexicalClasses, Lawful lexicalClass.2 := by
  have read {measure : List Char → Option Nat} (mode : Mode) (rejects : mode.accepts = false)
      (same : ∀ text, measure text = mode.longest text) : Lawful measure :=
    funext same ▸ mode.lawful rejects
  simp only [lexicalClasses, mem_cons, not_mem_nil, or_false, forall_eq_or_imp, forall_eq]
  exact ⟨read _ rfl Mode.comment?_eq, read _ rfl Mode.string?_eq, read _ rfl Mode.newline?_eq,
    read _ rfl Mode.whitespace?_eq, read _ rfl Mode.number?_eq, read _ rfl Mode.ident?_eq,
    longPunct?_lawful, read _ rfl Mode.directive?_eq⟩

/-! The front token. -/

/-- The first of some classes that takes a token. -/
def firstClass (classes : List (TokenKind × (List Char → Option Nat))) (text : List Char) :
    Option (TokenKind × Nat) :=
  classes.findSome? fun lexicalClass =>
    (lexicalClass.2 text).map fun length => (lexicalClass.1, length)

theorem frontToken_eq (text : List Char) :
    frontToken text = (firstClass lexicalClasses text).getD (.punct, 1) := rfl

theorem firstClass_mem {front : TokenKind × Nat} (found : firstClass classes text = some front) :
    ∃ lexicalClass ∈ classes, lexicalClass.2 text = some front.2 := by
  obtain ⟨lexicalClass, listed, taken⟩ := exists_of_findSome?_eq_some found
  obtain ⟨length, measured, rfl⟩ := Option.map_eq_some_iff.mp taken
  exact ⟨lexicalClass, listed, measured⟩

theorem firstClass_none_of_append (lawful : ∀ lexicalClass ∈ classes, Lawful lexicalClass.2)
    (fails : firstClass classes (front ++ rest) = none) : firstClass classes front = none := by
  rw [firstClass, findSome?_eq_none_iff] at fails ⊢
  intro lexicalClass listed
  have longer := Option.map_eq_none_iff.mp (fails lexicalClass listed)
  rw [(lawful lexicalClass listed).none_of_append longer, Option.map_none]

theorem firstClass_cut (lawful : ∀ lexicalClass ∈ classes, Lawful lexicalClass.2)
    {token : TokenKind × Nat} (found : firstClass classes (front ++ rest) = some token)
    (within : token.2 ≤ front.length) : firstClass classes front = some token := by
  induction classes with
  | nil => cases found
  | cons lexicalClass others ih =>
    have here := lawful lexicalClass (by simp)
    have n := ih fun other listed => lawful other (by simp [listed])
    simp only [firstClass, findSome?_cons] at found ⊢
    cases measured : lexicalClass.2 (front ++ rest) with
    | some length =>
      rw [measured] at found
      cases found
      rw [here.cut measured within]
      rfl
    | none =>
      rw [measured] at found
      rw [here.none_of_append measured]
      exact n found

theorem frontToken_positive (text : List Char) : 0 < (frontToken text).2 := by
  rw [frontToken_eq]
  cases found : firstClass lexicalClasses text with
  | none => exact Nat.one_pos
  | some front =>
    obtain ⟨lexicalClass, listed, taken⟩ := firstClass_mem found
    exact (lexicalClasses_lawful lexicalClass listed).positive taken

theorem frontToken_bounded (nonempty : text ≠ []) : (frontToken text).2 ≤ text.length := by
  rw [frontToken_eq]
  cases found : firstClass lexicalClasses text with
  | none => exact length_pos_iff.mpr nonempty
  | some front =>
    obtain ⟨lexicalClass, listed, taken⟩ := firstClass_mem found
    exact (lexicalClasses_lawful lexicalClass listed).bounded taken

/-- Cutting a text behind its front token leaves the front token as it is. -/
theorem frontToken_cut (within : (frontToken (front ++ rest)).2 ≤ front.length) :
    frontToken front = frontToken (front ++ rest) := by
  rw [frontToken_eq] at within
  rw [frontToken_eq, frontToken_eq]
  cases found : firstClass lexicalClasses (front ++ rest) with
  | none => rw [firstClass_none_of_append lexicalClasses_lawful found]
  | some token =>
    rw [found] at within
    rw [firstClass_cut lexicalClasses_lawful found within]

end WebShader.Token
