import WebShader.Token.Lexer

/-!
Contract: the lexical classes as machines that read one character after another.

Owns: the modes of a reading, the longest part at the front of a text that a mode
accepts, and what a reading knows of the text behind a part.

Does not own: which modes the classes start in; that is `LexicalClass`.

A part is read in two steps: a run through the part leads to a mode, or fails,
and what follows the part is read from that mode on. All laws of the classes
come from this one equation.
-/

namespace WebShader.Token

open List Text

/-- Where a reading of a lexical class stands. The first mode of a class bears its name. -/
inductive Mode where
  | comment | slash | line | block | star
  | string | quoted | escape
  | newline | carriage
  | whitespace | blank | backslash | continued
  | number | zero | digits | point | fraction | hexMark | hexDigits
  | exponentMark | exponentSign | exponent | longSuffix (upper : Bool)
  | ident | word
  | directive | hash
  | done
  deriving DecidableEq

/-- A character that fails a test is none of those that pass it. -/
theorem ne_of_all {test : Char → Bool} {chars : List Char} {c : Char}
    (all : chars.all test) (fails : test c = false) : ∀ d ∈ chars, c ≠ d := by grind

def isGap (c : Char) : Bool :=
  c == ' ' || c == '\t'

namespace Mode

def suffix (c : Char) : Option Mode :=
  if c = 'l' then some (longSuffix false)
  else if c = 'L' then some (longSuffix true)
  else if ['f', 'F', 'h', 'H'].contains c then some done
  else none

def afterDigit (c : Char) : Option Mode :=
  if isDigit c then some digits
  else if c = '.' then some fraction
  else if c = 'e' ∨ c = 'E' then some exponentMark
  else if c = 'u' ∨ c = 'U' then some done
  else none

/-- The mode after one more character. -/
def next (mode : Mode) (c : Char) : Option Mode :=
  match mode with
  | comment => if c = '/' then some slash else none
  | slash => if c = '/' then some line else if c = '*' then some block else none
  | line => if c = '\n' then none else some line
  | block => some (if c = '*' then star else block)
  | star => some (if c = '/' then done else if c = '*' then star else block)
  | string => if c = '"' then some quoted else none
  | quoted =>
    if c = '"' then some done
    else if c = '\\' then some escape
    else if c = '\n' then none
    else some quoted
  | escape => some quoted
  | newline => if c = '\n' then some done else if c = '\r' then some carriage else none
  | carriage => if c = '\n' then some done else none
  | whitespace | blank =>
    if c = '\\' then some backslash else if isInlineBlank c then some blank else none
  | backslash => if c = '\n' then some blank else if c = '\r' then some continued else none
  | continued => if c = '\n' then some blank else none
  | number =>
    if c = '0' then some zero
    else if isDigit c then some digits
    else if c = '.' then some point
    else none
  | zero => if c = 'x' ∨ c = 'X' then some hexMark else afterDigit c
  | digits => afterDigit c
  | point => if isDigit c then some fraction else none
  | fraction =>
    if isDigit c then some fraction
    else if c = 'e' ∨ c = 'E' then some exponentMark
    else suffix c
  | hexMark => if isHexDigit c then some hexDigits else none
  | hexDigits =>
    if isHexDigit c then some hexDigits else if c = 'u' ∨ c = 'U' then some done else none
  | exponentMark =>
    if c = '-' ∨ c = '+' then some exponentSign else if isDigit c then some exponent else none
  | exponentSign => if isDigit c then some exponent else none
  | exponent => if isDigit c then some exponent else suffix c
  | longSuffix upper => if c = (if upper then 'F' else 'f') then some done else none
  | ident => if isNameStart c then some word else none
  | word => if Text.isWord c then some word else none
  | directive => if c = '#' then some hash else none
  | hash => if isGap c then some hash else if isNameStart c then some word else none
  | done => none

def accepts : Mode → Bool
  | line | block | star | quoted | blank | zero | digits | fraction | hexDigits | exponent | word
  | done => true
  | _ => false

def here (mode : Mode) : Option Nat :=
  if mode.accepts then some 0 else none

/-- Length of the longest part at the front of a text that is accepted. -/
def longest (mode : Mode) : List Char → Option Nat
  | [] => mode.here
  | c :: rest => (((mode.next c).bind (longest · rest)).map (· + 1)).or mode.here

def run (mode : Mode) : List Char → Option Mode
  | [] => some mode
  | c :: rest => (mode.next c).bind (run · rest)

/-- Length of the longest part that is accepted and shorter than the text. -/
def inside (mode : Mode) : List Char → Option Nat
  | [] => none
  | c :: rest => (((mode.next c).bind (inside · rest)).map (· + 1)).or mode.here

variable {mode later : Mode} {c : Char} {front rest taken text : List Char} {length : Nat}

/-! Reading in two steps. -/

theorem longest_append (mode : Mode) (taken text : List Char) :
    mode.longest (taken ++ text) =
      (((mode.run taken).bind (·.longest text)).map (taken.length + ·)).or (mode.inside taken) := by
  induction taken generalizing mode with
  | nil => simp [run, inside]
  | cons c rest ih =>
    rw [cons_append, longest, run, inside]
    cases mode.next c with
    | none => rfl
    | some later =>
      simp only [Option.bind_some, ih]
      cases (later.run rest).bind (·.longest text) with
      | none => simp
      | some length => simp; omega

theorem inside_lt (found : mode.inside taken = some length) : length < taken.length := by
  induction taken generalizing mode length with
  | nil => cases found
  | cons c rest ih =>
    rw [inside, Option.or_eq_some_iff] at found
    rcases found with longer | ⟨-, shortest⟩
    · obtain ⟨behind, found, rfl⟩ := Option.map_eq_some_iff.mp longer
      obtain ⟨later, -, further⟩ := Option.bind_eq_some_iff.mp found
      grind
    grind [here]

theorem here_eq_some (found : mode.here = some length) : mode.accepts ∧ length = 0 := by
  grind [here]

theorem longest_ne_none (accepts : mode.accepts) (text : List Char) : mode.longest text ≠ none := by
  cases text <;> simp [longest, here, accepts]

theorem accepts_of_longest (found : mode.longest text = some 0) : mode.accepts := by
  cases text with
  | nil => exact (here_eq_some found).1
  | cons c rest =>
    rw [longest, Option.or_eq_some_iff] at found
    rcases found with longer | ⟨-, shortest⟩
    · obtain ⟨behind, -, zero⟩ := Option.map_eq_some_iff.mp longer
      cases zero
    · exact (here_eq_some shortest).1

/-- A part that ends behind some characters is what the mode behind them takes. -/
theorem exists_run (found : mode.longest (taken ++ text) = some length)
    (behind : taken.length ≤ length) :
    ∃ later further, mode.run taken = some later ∧ later.longest text = some further ∧
      length = taken.length + further := by
  rw [longest_append, Option.or_eq_some_iff] at found
  rcases found with reached | ⟨-, shorter⟩
  · obtain ⟨further, found, same⟩ := Option.map_eq_some_iff.mp reached
    obtain ⟨later, reached, longest⟩ := Option.bind_eq_some_iff.mp found
    grind
  · exact absurd (inside_lt shorter) (Nat.not_lt.mpr behind)

theorem longest_of_run (reached : mode.run taken = some later)
    (longest : later.longest text = some length) :
    mode.longest (taken ++ text) = some (taken.length + length) := by
  rw [longest_append, reached, Option.bind_some, longest]
  rfl

theorem longest_bounded (found : mode.longest text = some length) : length ≤ text.length := by
  rcases Nat.lt_or_ge length text.length with less | atLeast
  · exact Nat.le_of_lt less
  · rw [← append_nil text] at found
    obtain ⟨later, further, -, last, rfl⟩ := exists_run found atLeast
    rw [(here_eq_some last).2]
    exact Nat.le_refl _

theorem here_of_accepts (accepts : mode.accepts) : mode.here = some 0 :=
  if_pos accepts

theorem longest_cut (found : mode.longest (front ++ rest) = some length)
    (within : length ≤ front.length) : mode.longest front = some length := by
  rw [longest_append, Option.or_eq_some_iff] at found
  rw [← append_nil front]
  rcases found with reached | ⟨absent, shorter⟩
  · obtain ⟨further, found, rfl⟩ := Option.map_eq_some_iff.mp reached
    obtain ⟨later, run, last⟩ := Option.bind_eq_some_iff.mp found
    obtain rfl : further = 0 := by omega
    exact longest_of_run run (here_of_accepts (accepts_of_longest last))
  · rw [longest_append, Option.or_eq_some_iff]
    refine .inr ⟨?_, shorter⟩
    rw [Option.map_eq_none_iff, Option.bind_eq_none_iff] at absent ⊢
    intro later run
    exact if_neg fun accepts => longest_ne_none accepts rest (absent later run)

theorem longest_extend (rest : List Char) (found : mode.longest front = some length) :
    ∃ longer, mode.longest (front ++ rest) = some longer := by
  apply Option.ne_none_iff_exists'.mp
  intro absent
  rw [longest_append, Option.or_eq_none_iff] at absent
  rw [← append_nil front, longest_append, absent.2, Option.or_none] at found
  obtain ⟨further, reached, -⟩ := Option.map_eq_some_iff.mp found
  obtain ⟨later, run, last⟩ := Option.bind_eq_some_iff.mp reached
  rw [run] at absent
  exact longest_ne_none (here_eq_some last).1 rest (Option.map_eq_none_iff.mp absent.1)

/-- A reading stops in front of a character that none of its modes takes. -/
theorem longest_stopsAt {c : Char} {holds : Mode → Prop}
    (closed : ∀ mode later d, holds mode → mode.next d = some later → holds later)
    (stops : ∀ mode, holds mode → mode.next c = none) (first : holds mode) (front rest : List Char) :
    mode.longest (front ++ c :: rest) = mode.longest front := by
  induction front generalizing mode with
  | nil =>
    show (((mode.next c).bind _).map _).or mode.here = mode.here
    rw [stops mode first]
    rfl
  | cons d others ih =>
    rw [cons_append, longest, longest]
    cases found : mode.next d with
    | none => rfl
    | some later => grind

/-! Readings that go on. -/

/-- A reading takes at least one more character. -/
def GoesOn (mode : Mode) (text : List Char) : Prop :=
  ∃ length, mode.longest text = some (length + 1)

theorem not_goesOn_nil : ¬mode.GoesOn [] := by
  rintro ⟨length, found⟩
  cases (here_eq_some found).2

theorem goesOn_cons :
    mode.GoesOn (c :: rest) ↔ ∃ later, mode.next c = some later ∧ later.longest rest ≠ none := by
  constructor
  · rintro ⟨length, found⟩
    rw [longest, Option.or_eq_some_iff] at found
    rcases found with longer | ⟨-, shortest⟩
    · obtain ⟨behind, found, -⟩ := Option.map_eq_some_iff.mp longer
      obtain ⟨later, step, further⟩ := Option.bind_eq_some_iff.mp found
      exact ⟨later, step, by rw [further]; nofun⟩
    · cases (here_eq_some shortest).2
  · rintro ⟨later, step, present⟩
    obtain ⟨behind, found⟩ := Option.ne_none_iff_exists'.mp present
    exact ⟨behind, by rw [longest, step, Option.bind_some, found]; rfl⟩

end Mode

end WebShader.Token
