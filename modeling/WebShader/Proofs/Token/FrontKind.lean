import WebShader.Proofs.Token.Lookahead
import WebShader.Proofs.Token.Lossless

/-!
Contract: the front tokens of each kind.

Owns: which class a token of a kind comes from, where trivia end in front of a
name, and the front tokens that are names or punctuators of one character.
-/

namespace WebShader.Token

open List Text Mode

variable {c : Char} {rest taken : List Char} {length : Nat} {kind : TokenKind}
  {text name : List Char}

/-! Front tokens by kind. -/

theorem frontToken_class (front : frontToken text = (kind, length)) (notPunct : kind ≠ .punct) :
    ∃ measure, (kind, measure) ∈ lexicalClasses ∧ measure text = some length := by
  rw [frontToken_eq] at front
  cases found : firstClass lexicalClasses text with
  | none => grind
  | some token =>
    rw [found] at front
    obtain ⟨lexicalClass, listed, taken⟩ := exists_of_findSome?_eq_some found
    obtain ⟨measured, present, same⟩ := Option.map_eq_some_iff.mp taken
    grind

/-- Apart from punctuators, each kind has one class. -/
def measureOf : TokenKind → List Char → Option Nat
  | .comment => comment?
  | .string => string?
  | .newline => newline?
  | .whitespace => whitespace?
  | .number => number?
  | .ident => ident?
  | .punct => longPunct?
  | .directive => directive?

theorem measureOf_frontToken (front : frontToken text = (kind, length))
    (notPunct : kind ≠ .punct) : measureOf kind text = some length := by
  obtain ⟨measure, listed, measured⟩ := frontToken_class front notPunct
  have same : measureOf kind = measure := by
    simp only [lexicalClasses, mem_cons, not_mem_nil, or_false] at listed
    rcases listed with ⟨rfl, rfl⟩ | ⟨rfl, rfl⟩ | ⟨rfl, rfl⟩ | ⟨rfl, rfl⟩ | ⟨rfl, rfl⟩ | ⟨rfl, rfl⟩ |
      ⟨rfl, rfl⟩ | ⟨rfl, rfl⟩ <;> rfl
  rw [same, measured]

theorem frontToken_comment (measured : comment? text = some length) :
    frontToken text = (.comment, length) := by
  simp [frontToken_eq, firstClass, lexicalClasses, measured]

theorem frontToken_newline (measured : newline? text = some length) :
    frontToken text = (.newline, length) := by
  have others : comment? text = none ∧ string? text = none := by
    rcases newline?_cases measured with ⟨rest, rfl, -⟩ | ⟨rest, rfl, -⟩ <;> exact ⟨rfl, rfl⟩
  simp [frontToken_eq, firstClass, lexicalClasses, others, measured]

theorem frontToken_blank (present : blankLength text ≠ 0) :
    frontToken text = (.whitespace, blankLength text) := by
  obtain ⟨c, others, rfl⟩ := exists_cons_of_ne_nil (show text ≠ [] by rintro rfl; exact present rfl)
  obtain ⟨later, step, -⟩ := goesOn_cons.mp (goesOn_blank.mpr present)
  have closed : comment.next c = none ∧ string.next c = none ∧
      newline.next c = none := by
    grind [Mode.next, isInlineBlank]
  simp [frontToken_eq, firstClass, lexicalClasses, comment?_eq, string?_eq,
    newline?_eq, longest, closed, here, accepts, whitespace?, present]

/-! Trivia in front of a name. -/

theorem startsName_head (starts : startsName text) :
    ∃ c others, text = c :: others ∧ isNameStart c := by
  cases text with
  | nil => cases starts
  | cons c others => exact ⟨c, others, rfl, by simpa [startsName] using starts⟩

theorem blankLength_startsName (starts : startsName text) : blankLength text = 0 := by
  obtain ⟨c, others, rfl, name⟩ := startsName_head starts
  have plain : c ≠ '\\' := by
    rintro rfl
    exact absurd name (by decide)
  have notBlank : isInlineBlank c = false := by
    cases blank : isInlineBlank c with
    | false => rfl
    | true =>
      simp only [isInlineBlank, Bool.or_eq_true, beq_iff_eq] at blank
      rcases blank with ((rfl | rfl) | rfl) | rfl <;> exact absurd name (by decide)
  rw [blankLength_cons plain, notBlank]
  rfl

theorem blankLength_append {front : List Char} (whole : blankLength front = front.length)
    (text : List Char) : blankLength (front ++ text) = front.length + blankLength text := by
  fun_induction blankLength front with
  | case1 others ih => grind [blankLength]
  | case2 others ih => grind [blankLength]
  | case3 c others notCarriage notFeed blank ih =>
    simp only [length_cons] at whole
    have later := ih (by omega)
    have plain : c ≠ '\\' := by
      rintro rfl
      exact absurd blank (by decide)
    rw [cons_append, blankLength_cons plain, if_pos blank, length_cons]
    omega
  | case4 c others notCarriage notFeed notBlank => simp at whole
  | case5 => simp

/-- A line end stays one, whatever follows. -/
theorem frontToken_lineEnd (leads : frontToken (taken ++ rest) = (.newline, taken.length))
    (other : List Char) : frontToken (taken ++ other) = (.newline, taken.length) := by
  have alone : newline? taken = some taken.length :=
    measureOf_frontToken (frontToken_alone leads) (by decide)
  rcases newline?_cases alone with ⟨tail, rfl, length⟩ | ⟨tail, rfl, length⟩ <;> (rw [length]; rfl)

theorem all_of_runLength {inClass : Char → Bool}
    (whole : runLength inClass text = text.length) : ∀ c ∈ text, inClass c := by
  have same := (takeWhile_sublist inClass (l := text)).eq_of_length whole
  have all := @List.all_takeWhile _ inClass text
  rw [same] at all
  exact all_eq_true.mp all

/-- A comment that might end goes on within its line. -/
theorem Mode.goesOn_comment {mode : Mode} (isComment : mode.family = .comment)
    (accepts : mode.accepts) (sameLine : c ≠ '\n') (text : List Char) :
    mode.GoesOn (c :: text) := by
  obtain ⟨later, step, stays⟩ : ∃ later, mode.next c = some later ∧ later.accepts := by
    cases mode <;> grind [Mode.next, accepts, family]
  exact goesOn_cons.mpr ⟨later, step, longest_ne_none stays text⟩

/-- A comment that ends within its line ends before any other text too. -/
theorem frontToken_blockComment (leads : frontToken (taken ++ rest) = (.comment, taken.length))
    (present : rest ≠ []) (sameLine : rest.head? ≠ some '\n') (other : List Char) :
    frontToken (taken ++ other) = (.comment, taken.length) := by
  have measured : comment? (taken ++ rest) = some taken.length :=
    measureOf_frontToken leads (by decide)
  rw [comment?_eq] at measured
  obtain ⟨later, further, reached, ends, same⟩ := exists_run measured (Nat.le_refl _)
  obtain rfl : further = 0 := by omega
  apply frontToken_comment
  rcases (run_parts reached).2 with closed | inside | ⟨-, directive⟩
  · obtain rfl := eq_done closed
    rw [comment?_eq, longest_of_run reached (longest_done other), Nat.add_zero]
  · obtain ⟨c, others, rfl⟩ := exists_cons_of_ne_nil present
    obtain ⟨length, more⟩ := goesOn_comment inside (accepts_of_longest ends)
      (fun feed => sameLine (congrArg some feed)) others
    rw [ends] at more
    cases more
  · cases directive

/-- Trivia that other code follows on the line end there too if a name follows instead. -/
theorem frontToken_trivia {other : List Char}
    (leads : frontToken (taken ++ rest) = (kind, taken.length)) (trivia : kind.isTrivia)
    (present : rest ≠ []) (sameLine : rest.head? ≠ some '\n') (starts : startsName other) :
    frontToken (taken ++ other) = (kind, taken.length) := by
  cases kind with
  | whitespace =>
    have alone : whitespace? taken = some taken.length :=
      measureOf_frontToken (frontToken_alone leads) (by decide)
    have whole : blankLength taken = taken.length := by
      rw [whitespace?] at alone
      split at alone
      · cases alone
      · exact Option.some.inj alone
    have length := blankLength_append whole other
    rw [blankLength_startsName starts] at length
    grind [ne_nil_of_leads, frontToken_blank]
  | newline => exact frontToken_lineEnd leads other
  | comment => exact frontToken_blockComment leads present sameLine other
  | _ => cases trivia

theorem head_of_trivia (leads : frontToken (taken ++ rest) = (kind, taken.length))
    (trivia : kind.isTrivia) : taken.head?.any opensCode = false := by
  obtain ⟨c, others, rfl⟩ := exists_cons_of_ne_nil (ne_nil_of_leads leads)
  cases code : opensCode c with
  | false => simpa using code
  | true =>
    rw [cons_append, frontToken_code code] at leads
    cases found : firstClass [(.number, number?), (.ident, ident?), (.punct, longPunct?),
        (.directive, directive?)] (c :: (others ++ rest)) with
    | none =>
      rw [found] at leads
      obtain rfl : .punct = kind := congrArg Prod.fst leads
      cases trivia
    | some token =>
      rw [found] at leads
      obtain rfl : token.1 = kind := congrArg Prod.fst leads
      obtain ⟨lexicalClass, listed, measured⟩ := exists_of_findSome?_eq_some found
      obtain ⟨length, -, rfl⟩ := Option.map_eq_some_iff.mp measured
      simp only [mem_cons, not_mem_nil, or_false] at listed
      rcases listed with rfl | rfl | rfl | rfl <;> cases trivia

/-- Trivia hold a character behind which all texts resemble each other. -/
theorem exists_plain_of_trivia (leads : frontToken (taken ++ rest) = (kind, taken.length))
    (trivia : kind.isTrivia) : ∃ c ∈ taken, c ≠ '\\' ∧ c ≠ '\r' := by
  have lineFeed : ∀ {text length}, newline? text = some length → '\n' ∈ text := by
    intro text length measured
    rcases newline?_cases measured with ⟨rest, rfl, -⟩ | ⟨rest, rfl, -⟩ <;> simp
  have alone := frontToken_alone leads
  cases kind with
  | newline =>
    have measured : newline? taken = some taken.length := measureOf_frontToken alone (by decide)
    grind
  | comment =>
    have measured : comment? taken = some taken.length := measureOf_frontToken alone (by decide)
    rcases comment?_cases measured with ⟨tail, rfl, -⟩ | ⟨tail, rfl, -⟩ <;>
      exact ⟨'/', mem_cons_self, by decide, by decide⟩
  | whitespace =>
    have measured : whitespace? taken = some taken.length := measureOf_frontToken alone (by decide)
    have present : blankLength taken ≠ 0 := by
      intro absent
      rw [whitespace?, absent] at measured
      cases measured
    obtain ⟨c, others, rfl⟩ := exists_cons_of_ne_nil (ne_nil_of_leads leads)
    by_cases backslash : c = '\\'
    · grind [blankLength_backslash]
    · refine ⟨c, mem_cons_self, backslash, ?_⟩
      rintro rfl
      exact present (by rfl)
  | _ => cases trivia

/-! Names and single punctuators. -/

def isName (text : List Char) : Bool :=
  startsName text && text.all Text.isWord

theorem isName.startsName (named : isName name) (text : List Char) : startsName (name ++ text) := by
  simp only [isName, Bool.and_eq_true] at named
  obtain ⟨c, others, rfl, first⟩ := startsName_head named.1
  simpa [Token.startsName] using first

theorem isName_of_frontToken (leads : frontToken (taken ++ rest) = (.ident, taken.length)) :
    isName taken := by
  have alone : ident? taken = some taken.length :=
    measureOf_frontToken (frontToken_alone leads) (by decide)
  cases taken with
  | nil => cases alone
  | cons c others =>
    rw [ident?] at alone
    grind [all_of_runLength, isName, startsName, nameStart_word]

theorem frontToken_startsName (starts : startsName text) : (frontToken text).1 = .ident := by
  obtain ⟨c, others, rfl, name⟩ := startsName_head starts
  have code : opensCode c := opensCode_of_class (by decide) name
  have notNumber : number? (c :: others) = none := by
    apply number?_eq_none
    · grind [digit_not_name]
    · rintro rfl
      cases name
  grind [ident?_isSome, frontToken_code, firstClass]

/-- A name ends where no word character follows. -/
theorem frontToken_name (named : isName name) (stops : rest.head?.any Text.isWord = false) :
    frontToken (name ++ rest) = (.ident, name.length) := by
  simp only [isName, Bool.and_eq_true, all_eq_true] at named
  obtain ⟨c, others, rfl, first⟩ := startsName_head named.1
  have kind : (frontToken (c :: others ++ rest)).1 = .ident :=
    frontToken_startsName (by simpa [startsName] using first)
  have measured : ident? (c :: others ++ rest) = some (frontToken (c :: others ++ rest)).2 :=
    measureOf_frontToken (Prod.ext kind rfl) (by decide)
  have words : ∀ d ∈ others, Text.isWord d := fun d mem => named.2 d (by simp [mem])
  have behind : runLength Text.isWord rest = 0 := by
    apply Decidable.byContradiction
    intro present
    rw [runLength_ne_zero.mp present] at stops
    cases stops
  rw [cons_append, ident?, runLength_append_all words] at measured
  grind

theorem word_stops (leads : frontToken (name ++ rest) = (.ident, name.length)) :
    rest.head?.any Text.isWord = false := by
  have named := isName_of_frontToken leads
  simp only [isName, Bool.and_eq_true, all_eq_true] at named
  obtain ⟨c, others, rfl, first⟩ := startsName_head named.1
  have measured : ident? (c :: others ++ rest) = some (c :: others).length :=
    measureOf_frontToken leads (by decide)
  have words : ∀ d ∈ others, Text.isWord d := fun d mem => named.2 d (by simp [mem])
  rw [cons_append, ident?, if_pos first, runLength_append_all words] at measured
  have length := Option.some.inj measured
  rw [length_cons] at length
  cases word : rest.head?.any Text.isWord with
  | false => rfl
  | true =>
    have present := runLength_ne_zero.mpr word
    omega

theorem frontToken_single (code : opensCode c)
    (notDigit : isDigit c = false) (notName : isNameStart c = false) (plain : c ≠ '.' ∧ c ≠ '#')
    (notLong : longPunct? (c :: text) = none) : frontToken (c :: text) = (.punct, 1) := by
  have number : number? (c :: text) = none := number?_eq_none notDigit plain.1 text
  simp_all [ident?, directive?, frontToken_code, firstClass]

theorem longPunct?_eq_none (ne : ∀ punctuator ∈ longPunctuators, ∀ d others,
      punctuator.toList = c :: d :: others → text.head? ≠ some d) :
    longPunct? (c :: text) = none := by
  rw [longPunct?, Option.map_eq_none_iff, find?_eq_none]
  intro punctuator listed opens
  have long := longPunctuators_length punctuator listed
  rw [← String.length_toList] at long
  obtain ⟨d, others, shape⟩ : ∃ d others, punctuator.toList = c :: d :: others := by
    cases first : punctuator.toList with
    | nil => simp [first] at long
    | cons e tail =>
      cases second : tail with
      | nil => simp [first, second] at long
      | cons d others => grind
  obtain ⟨rest, whole⟩ := List.isPrefixOf_iff_prefix.mp opens
  grind

/-- The punctuators that stand alone whatever is next to them. -/
def standsAlone (c : Char) : Bool :=
  "()[]\x7b\x7d;,".toList.contains c

theorem frontToken_alone_punct (alone : standsAlone c) (text : List Char) :
    frontToken (c :: text) = (.punct, 1) := by
  have heads : ∀ punctuator ∈ longPunctuators,
      punctuator.toList.head?.any standsAlone = false := by decide
  have notLong : longPunct? (c :: text) = none := by
    apply longPunct?_eq_none
    intro punctuator listed d others shape
    have head := heads punctuator listed
    simp [shape, alone] at head
  have plain : (opensCode c && !isDigit c && !isNameStart c && c != '.' && c != '#') := by
    have all : "()[]\x7b\x7d;,".toList.all (fun c =>
        opensCode c && !isDigit c && !isNameStart c && c != '.' && c != '#') := by decide
    exact all_eq_true.mp all c (contains_iff_mem.mp alone)
  simp_all [frontToken_single]

theorem frontToken_equals (ne : text.head? ≠ some '=') :
    frontToken ('=' :: text) = (.punct, 1) := by
  have seconds : ∀ punctuator ∈ longPunctuators,
      punctuator.toList.head? = some '=' → punctuator.toList.tail.head? = some '=' := by decide
  apply frontToken_single (by decide) (by decide) (by decide) (by decide)
  grind [longPunct?_eq_none]

end WebShader.Token
