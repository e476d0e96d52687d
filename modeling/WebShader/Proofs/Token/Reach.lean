import WebShader.Proofs.Token.LexicalClass

/-!
Contract: how far the classes reach into the text behind a token.

Owns: when one text may take the place of another behind a token, and that the
machines go on into both or neither.

Does not own: the front token as a whole; that is `Lookahead`.

A class looks behind what is taken only to find out whether it goes on. The
first character decides that, together with the line end after a backslash and
the name after a hash. Numbers are taken as wholes: the mark of an exponent
alone would look further.
-/

namespace WebShader.Token

open List Text Mode

variable {mode later : Mode} {c : Char} {other rest taken text : List Char} {length : Nat}

def startsName (text : List Char) : Bool :=
  text.head?.any isNameStart

/-- Whether a name follows, after blanks within the line. -/
def namesAhead (text : List Char) : Bool :=
  startsName (text.dropWhile isGap)

/-- Characters that go on no token but a comment or a string. -/
def isInert (c : Char) : Bool :=
  c == ';' || c == ',' || c == ')' || c == ']' || c == '\x7d'

/-- First characters that no class tells apart. -/
inductive Kin : Option Char → Option Char → Prop where
  | same {head : Option Char} : Kin head head
  | names {c d : Char} (first : isNameStart c = true) (second : isNameStart d = true) :
      Kin (some c) (some d)
  | inert {c d : Char} (first : isInert c = true) (second : isInert d = true) :
      Kin (some c) (some d)

/-- `other` may take the place of `rest` behind a token. -/
structure Resembles (rest other : List Char) : Prop where
  head : Kin rest.head? other.head?
  escape : other.head? = some '\\' → other.tail ≠ [] → rest.tail ≠ []
  lineEnd : newline? other ≠ none → newline? rest ≠ none
  blank : blankLength other ≠ 0 → blankLength rest ≠ 0

/-- A measure takes more than what stands in front of a text. -/
def Reaches (measure : List Char → Option Nat) (taken text : List Char) : Prop :=
  ∃ length, measure (taken ++ text) = some length ∧ taken.length < length

/-! Characters. -/

theorem nameStart_word (name : isNameStart c) : Text.isWord c := by
  simp only [isNameStart] at name
  grind [Text.isWord]

theorem isInert_iff (c : Char) :
    isInert c ↔ c = ';' ∨ c = ',' ∨ c = ')' ∨ c = ']' ∨ c = '\x7d' := by
  simp only [isInert, Bool.or_eq_true, beq_iff_eq, or_assoc]

/-- A class without inert characters. -/
theorem not_inert {inClass : Char → Bool} (outside : ";,)]\x7d".toList.any inClass = false)
    (mem : inClass c) : isInert c = false := by
  apply Bool.eq_false_iff.mpr
  intro inert
  have found := any_eq_false.mp outside c (by simp_all [isInert_iff])
  exact found mem

theorem inert_not_word (inert : isInert c) : Text.isWord c = false := by
  rcases (isInert_iff c).mp inert with rfl | rfl | rfl | rfl | rfl <;> decide

/-- Characters that tokens other than words are made of. -/
def marks : List Char :=
  ['/', '*', '\n', '\r', '"', '\\', ' ', '\t', '\x0c', '\x0b']

/-- Kin are the same, or alike in words and in none of the other tokens. -/
theorem Kin.cases {rest other : Option Char} (kin : Kin rest other) :
    rest = other ∨ ∃ c d, rest = some c ∧ other = some d ∧ c ∉ marks ∧ d ∉ marks ∧
      Text.isWord c = Text.isWord d := by
  have plain {inClass : Char → Bool} (outside : marks.any inClass = false) (c : Char)
      (mem : inClass c) : c ∉ marks :=
    fun listed => any_eq_false.mp outside c listed mem
  cases kin with
  | same => exact .inl rfl
  | @names c d first second =>
    refine .inr ⟨c, d, rfl, rfl, plain (by decide) c first, plain (by decide) d second, ?_⟩
    rw [nameStart_word first, nameStart_word second]
  | @inert c d first second =>
    refine .inr ⟨c, d, rfl, rfl, plain (by decide) c first, plain (by decide) d second, ?_⟩
    rw [inert_not_word first, inert_not_word second]

theorem Kin.eq_of_plain {rest other : Option Char} (kin : Kin rest other) (found : other = some c)
    (notName : isNameStart c = false) (notInert : isInert c = false) : rest = some c := by
  cases kin with
  | same => exact found
  | names _ second => grind
  | inert _ second => grind

theorem Resembles.ne_nil (resembles : Resembles rest other) (present : other ≠ []) : rest ≠ [] := by
  rcases resembles.head.cases with same | ⟨c, d, found, -⟩
  · rw [ne_eq, ← head?_eq_none_iff] at present ⊢
    rwa [same]
  · rintro rfl
    cases found

theorem Resembles.eq_cons (resembles : Resembles rest other) {others : List Char}
    (shape : other = c :: others) (notName : isNameStart c = false) (notInert : isInert c = false) :
    ∃ further, rest = c :: further := by
  have head := resembles.head.eq_of_plain (by rw [shape]; rfl) notName notInert
  exact head?_eq_some_iff.mp head

/-! Readings that go on. -/

namespace Mode

open Mode

theorem goesOn_blank : blank.GoesOn text ↔ blankLength text ≠ 0 := by
  rw [GoesOn, longest_blank]
  constructor
  · grind
  · intro present
    obtain ⟨length, same⟩ := Nat.exists_eq_succ_of_ne_zero present
    exact ⟨length, congrArg some same⟩

theorem goesOn_backslash : backslash.GoesOn text ↔ newline? text ≠ none := by
  rw [GoesOn, longest_backslash]
  cases found : newline? text with
  | none => simp
  | some length =>
    have positive := (newline.lawful rfl).positive (newline?_eq text ▸ found)
    exact ⟨fun _ => nofun, fun _ => ⟨length + blankLength (text.drop length) - 1, by
      rw [Option.map_some]; congr 1; omega⟩⟩

theorem goesOn_hash : hash.GoesOn text ↔ namesAhead text := by
  rw [GoesOn, longest_hash, namesAhead, startsName]
  generalize text.dropWhile isGap = behind
  cases behind with
  | nil => simp [ident?]
  | cons c rest =>
    cases first : isNameStart c with
    | false => simp [ident?, first]
    | true =>
      simp only [ident?, first, if_true, Option.map_some]
      grind

/-- The class that a mode belongs to. Where nothing follows, this does not matter. -/
def family : Mode → TokenKind
  | comment | slash | line | block | star => .comment
  | string | quoted | escape => .string
  | newline | carriage => .newline
  | whitespace | blank | backslash | continued => .whitespace
  | number | zero | digits | point | fraction | hexMark | hexDigits | exponentMark | exponentSign
  | exponent | longSuffix _ => .number
  | ident | word => .ident
  | directive | hash => .directive
  | done => .punct

def isFirst : Mode → Bool
  | comment | string | newline | whitespace | number | ident | directive => true
  | _ => false

end Mode

/-- Inside a class most steps lead to a mode that accepts. -/
theorem Mode.accepts_or_escape (further : mode.isFirst = false) (notNumber : mode.family ≠ .number)
    (plain : mode ≠ .blank ∧ mode ≠ .backslash ∧ mode ≠ .hash) (step : mode.next c = some later) :
    later.accepts ∨ (later = .escape ∧ c = '\\') := by
  cases mode <;> simp [isFirst, family] at further notNumber plain <;> grind [Mode.next, accepts]

/-- Such a step is possible with all characters that words alone tell apart. -/
theorem Mode.next_alike {d : Char} (further : mode.isFirst = false)
    (notNumber : mode.family ≠ .number)
    (plain : mode ≠ .blank ∧ mode ≠ .backslash ∧ mode ≠ .hash) (notMark : c ∉ marks)
    (otherNotMark : d ∉ marks) (alike : Text.isWord c = Text.isWord d)
    (step : mode.next d = some later) : ∃ same, mode.next c = some same ∧ same.accepts := by
  simp only [marks, mem_cons] at notMark otherNotMark
  cases mode <;> simp [isFirst, family] at further notNumber plain <;> grind [Mode.next, accepts]

theorem Resembles.goesOn (resembles : Resembles rest other) (further : mode.isFirst = false)
    (notNumber : mode.family ≠ .number)
    (names : mode = .hash → namesAhead other → namesAhead rest)
    (goesOn : mode.GoesOn other) : mode.GoesOn rest := by
  by_cases special : mode = .blank ∨ mode = .backslash ∨ mode = .hash
  · rcases special with rfl | rfl | rfl
    · exact goesOn_blank.mpr (resembles.blank (goesOn_blank.mp goesOn))
    · exact goesOn_backslash.mpr (resembles.lineEnd (goesOn_backslash.mp goesOn))
    · exact goesOn_hash.mpr (names rfl (goesOn_hash.mp goesOn))
  simp only [not_or] at special
  cases other with
  | nil => exact absurd goesOn not_goesOn_nil
  | cons d others =>
    obtain ⟨later, step, present⟩ := goesOn_cons.mp goesOn
    obtain ⟨c, more, rfl⟩ := exists_cons_of_ne_nil (resembles.ne_nil (cons_ne_nil d others))
    rw [goesOn_cons]
    rcases resembles.head.cases with same | ⟨_, _, first, second, notMark, otherNotMark, alike⟩
    · obtain rfl : c = d := Option.some.inj same
      refine ⟨later, step, ?_⟩
      rcases accepts_or_escape further notNumber special step with accepts | ⟨rfl, rfl⟩
      · exact longest_ne_none accepts more
      · -- behind the backslash any character goes on
        have nonempty : others ≠ [] := by
          rintro rfl
          exact present rfl
        obtain ⟨e, tail, shape⟩ := exists_cons_of_ne_nil (resembles.escape rfl nonempty)
        obtain rfl : more = e :: tail := shape
        obtain ⟨length, found⟩ :=
          Option.ne_none_iff_exists'.mp (@Mode.longest_ne_none .quoted rfl tail)
        simp [longest, Mode.next, found]
    grind [next_alike, longest_ne_none]

/-- An accepted number goes on alike in front of texts that start no name. -/
theorem Mode.goesOn_number (kin : Kin rest.head? other.head?) (unnamed : startsName other = false)
    (isNumber : mode.family = .number) (accepts : mode.accepts)
    (goesOn : mode.GoesOn other) : mode.GoesOn rest := by
  cases other with
  | nil => exact absurd goesOn not_goesOn_nil
  | cons c others =>
    obtain ⟨later, step, -⟩ := goesOn_cons.mp goesOn
    have notName : isNameStart c = false := by simpa [startsName] using unnamed
    have letters : ∀ d ∈ ['x', 'X', 'e', 'E', 'u', 'U', 'l', 'L', 'f', 'F', 'h', 'H'], c ≠ d :=
      ne_of_all (by decide) notName
    obtain ⟨inNumber, stays⟩ : (isDigit c ∨ isHexDigit c ∨ c = '.') ∧ later.accepts := by
      cases mode <;> simp [family] at accepts isNumber <;>
        grind [Mode.next, afterDigit, suffix, accepts]
    have notInert : isInert c = false := by
      rcases inNumber with digit | hexDigit | rfl
      · exact not_inert (by decide) digit
      · exact not_inert (by decide) hexDigit
      · rfl
    obtain ⟨further, rfl⟩ := head?_eq_some_iff.mp (kin.eq_of_plain rfl notName notInert)
    exact goesOn_cons.mpr ⟨later, step, longest_ne_none stays further⟩

/-! Reaching behind a part. -/

theorem Mode.reaches_iff : Reaches mode.longest taken text ↔
    ∃ later, mode.run taken = some later ∧ later.GoesOn text := by
  constructor
  · rintro ⟨length, found, longer⟩
    obtain ⟨later, further, reached, behind, rfl⟩ := exists_run found (Nat.le_of_lt longer)
    obtain ⟨count, rfl⟩ := Nat.exists_eq_succ_of_ne_zero (show further ≠ 0 by omega)
    exact ⟨later, reached, count, behind⟩
  · rintro ⟨later, reached, count, behind⟩
    exact ⟨taken.length + (count + 1), longest_of_run reached behind, by omega⟩

theorem Mode.eq_done (closed : mode.family = .punct) : mode = .done := by
  cases mode <;> simp [family] at closed
  rfl

theorem Mode.next_parts (step : mode.next c = some later) : later.isFirst = false ∧
    (later.family = .punct ∨ later.family = mode.family ∨
        (later.family = .ident ∧ mode.family = .directive)) := by
  cases mode <;> grind [Mode.next, isFirst, family, afterDigit, suffix]

theorem Mode.run_parts (reached : mode.run taken = some later) :
    (taken ≠ [] → later.isFirst = false) ∧ (later.family = .punct ∨ later.family = mode.family ∨
        (later.family = .ident ∧ mode.family = .directive)) := by
  induction taken generalizing mode with
  | nil =>
    cases reached
    simp
  | cons c rest ih =>
    obtain ⟨behind, step, further⟩ := Option.bind_eq_some_iff.mp reached
    obtain ⟨notFirst, same⟩ := next_parts step
    have last := ih further
    refine ⟨fun _ => ?_, by grind⟩
    cases rest with
    | nil =>
      cases further
      exact notFirst
    | cons => exact last.1 (cons_ne_nil _ _)

/-- A class reaches alike into texts that resemble each other. -/
theorem Mode.reaches_of_resembles (resembles : Resembles rest other) (present : taken ≠ [])
    (notNumber : mode.family ≠ .number)
    (names : mode.family = .directive → namesAhead other → namesAhead rest)
    (reaches : Reaches mode.longest taken other) : Reaches mode.longest taken rest := by
  obtain ⟨later, reached, goesOn⟩ := reaches_iff.mp reaches
  obtain ⟨notFirst, same⟩ := run_parts reached
  refine reaches_iff.mpr ⟨later, reached, resembles.goesOn (notFirst present) ?_ ?_ goesOn⟩
  · grind
  · rintro rfl
    rcases same with same | same | ⟨same, -⟩
    · cases same
    · exact names same.symm
    · cases same

end WebShader.Token
