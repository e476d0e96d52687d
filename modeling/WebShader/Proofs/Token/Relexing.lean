import WebShader.Proofs.Token.FrontKind

/-!
Contract: when lexemes that are put together again split again.

Owns: texts that replace each other behind every token, and texts behind which
anything may follow; texts of which the first ends in a character that no
measure looks behind.

A number in front of a name may swallow the start of the name, so numbers and
names have to stand apart.
-/

namespace WebShader.Token

open List Text

variable {c : Char} {piece : Lexeme} {other rest : List Char} {others pieces : List Lexeme}
  {text : List Char}

/-! Texts that replace each other. -/

/-- `other` may take the place of `rest` behind every token but a number. -/
structure Replaces (rest other : List Char) : Prop extends Resembles rest other where
  names : namesAhead other = true → namesAhead rest = true

theorem Replaces.refl (text : List Char) : Replaces text text where
  head := .same
  escape := fun _ present => present
  lineEnd := id
  blank := id
  names := id

/-- Behind a line end or any other character that is neither a backslash nor a
carriage return, all texts resemble each other. -/
theorem resembles_cons (backslash : c ≠ '\\') (carriage : c ≠ '\r') (rest other : List Char) :
    Resembles (c :: rest) (c :: other) where
  head := .same
  escape := fun same => absurd (Option.some.inj same) backslash
  lineEnd := by
    intro ends
    rcases newline?_head ends with rfl | ⟨isCarriage, -⟩
    · exact Option.some_ne_none 1
    · exact absurd isCarriage carriage
  blank := by simp_all [blankLength_cons]

theorem newline?_cons (resembles : Resembles rest other) (c : Char)
    (ends : newline? (c :: other) ≠ none) : newline? (c :: rest) ≠ none := by
  rcases newline?_head ends with rfl | ⟨rfl, head⟩
  · exact Option.some_ne_none 1
  · have same := resembles.head.eq_of_plain head (by decide) (by decide)
    obtain ⟨others, rfl⟩ := head?_eq_some_iff.mp same
    exact Option.some_ne_none 2

theorem Resembles.cons (resembles : Resembles rest other) (c : Char) :
    Resembles (c :: rest) (c :: other) where
  head := .same
  escape := fun _ present => resembles.ne_nil present
  lineEnd := newline?_cons resembles c
  blank := by
    intro present
    by_cases backslash : c = '\\'
    · subst backslash
      rw [blankLength_backslash] at present ⊢
      have ends : newline? other ≠ none := by
        intro absent
        rw [absent] at present
        exact present rfl
      obtain ⟨length, found⟩ := Option.ne_none_iff_exists'.mp (resembles.lineEnd ends)
      grind
    simp_all [blankLength_cons]

theorem Resembles.append (resembles : Resembles rest other) (front : List Char) :
    Resembles (front ++ rest) (front ++ other) := by
  induction front with
  | nil => exact resembles
  | cons c tail ih => exact ih.cons c

theorem resembles_append {front : List Char} (mem : c ∈ front) (backslash : c ≠ '\\')
    (carriage : c ≠ '\r') (rest other : List Char) :
    Resembles (front ++ rest) (front ++ other) := by
  obtain ⟨left, right, rfl⟩ := append_of_mem mem
  rw [append_assoc, append_assoc]
  exact (resembles_cons backslash carriage (right ++ rest) (right ++ other)).append left

theorem namesAhead_cons (c : Char) (text : List Char) :
    namesAhead (c :: text) = if isGap c then namesAhead text else isNameStart c := by
  cases gap : isGap c with
  | true => simp [namesAhead, gap]
  | false => simp [namesAhead, gap, startsName]

theorem Replaces.cons (replaces : Replaces rest other) (c : Char) :
    Replaces (c :: rest) (c :: other) where
  toResembles := replaces.toResembles.cons c
  names := by
    rw [namesAhead_cons, namesAhead_cons]
    split
    · exact replaces.names
    · exact id

theorem Replaces.append (replaces : Replaces rest other) (front : List Char) :
    Replaces (front ++ rest) (front ++ other) := by
  induction front with
  | nil => exact replaces
  | cons c tail ih => exact ih.cons c

theorem replaces_of_names (first : startsName rest) (second : startsName other) :
    Replaces rest other := by
  obtain ⟨c, restTail, rfl, firstName⟩ := startsName_head first
  obtain ⟨d, otherTail, rfl, secondName⟩ := startsName_head second
  have plain : d ≠ '\\' ∧ d ≠ '\n' ∧ d ≠ '\r' := by
    refine ⟨?_, ?_, ?_⟩ <;> (rintro rfl; exact absurd secondName (by decide))
  refine ⟨⟨.names firstName secondName, ?_, ?_, ?_⟩, ?_⟩
  · grind
  · intro ends
    rcases newline?_head ends with lineFeed | ⟨isCarriage, -⟩
    · exact absurd lineFeed plain.2.1
    · exact absurd isCarriage plain.2.2
  · exact fun blank => absurd (blankLength_startsName second) blank
  · intro _
    have notGap : isGap c = false := by
      cases gap : isGap c with
      | false => rfl
      | true =>
        simp only [isGap, Bool.or_eq_true, beq_iff_eq] at gap
        rcases gap with rfl | rfl <;> exact absurd firstName (by decide)
    rw [namesAhead_cons, notGap]
    exact firstName

theorem inert_not_name (inert : isInert c) : isNameStart c = false := by
  cases name : isNameStart c with
  | false => rfl
  | true => exact absurd (nameStart_word name) (by rw [inert_not_word inert]; decide)

theorem replaces_of_inert {d : Char} (first : isInert c) (second : isInert d)
    (rest other : List Char) : Replaces (c :: rest) (d :: other) := by
  rw [isInert_iff] at second
  refine ⟨⟨.inert first (isInert_iff d |>.mpr second), ?_, ?_, ?_⟩, ?_⟩
  · grind
  · rcases second with rfl | rfl | rfl | rfl | rfl <;> exact fun ends => absurd rfl ends
  · rcases second with rfl | rfl | rfl | rfl | rfl <;> exact fun blank => absurd rfl blank
  · rw [namesAhead_cons, if_neg (by rcases second with rfl | rfl | rfl | rfl | rfl <;> decide),
      inert_not_name (isInert_iff d |>.mpr second)]
    nofun

theorem Replaces.startsName_eq (replaces : Replaces rest other) :
    startsName other = startsName rest := by
  have kin := replaces.head
  rw [startsName, startsName]
  revert kin
  generalize rest.head? = first
  generalize other.head? = second
  intro kin
  cases kin with
  | same => rfl
  | names firstName secondName => simp [firstName, secondName]
  | inert firstInert secondInert =>
    simp [inert_not_name firstInert, inert_not_name secondInert]

theorem Replaces.word_stops (replaces : Replaces rest other)
    (stops : rest.head?.any Text.isWord = false) : other.head?.any Text.isWord = false := by
  rcases replaces.head.cases with same | ⟨c, d, first, second, -, -, alike⟩
  · rwa [← same]
  grind

/-! Lists of lexemes. -/

/-- No number has a name right behind it. -/
def numbersApart : List Lexeme → Bool
  | [] => true
  | piece :: rest =>
    !(piece.kind == .number && rest.head?.any (·.kind == .ident)) && numbersApart rest

theorem Splits.cons_inv (splits : Splits text (piece :: pieces)) :
    ∃ rest, text = piece.text ++ rest ∧
      frontToken (piece.text ++ rest) = (piece.kind, piece.text.length) ∧ Splits rest pieces := by
  cases splits with
  | cons leads others => exact ⟨_, rfl, leads, others⟩

theorem Splits.startsName_eq (splits : Splits text pieces) :
    startsName text = pieces.head?.any (·.kind == .ident) := by
  cases splits with
  | nil => rfl
  | @cons kind front rest others leads further =>
    apply Bool.eq_iff_iff.mpr
    constructor
    · grind [frontToken_startsName]
    · intro ident
      obtain rfl : kind = .ident := by simpa using ident
      exact isName.startsName (isName_of_frontToken leads) rest

theorem Splits.numbersApart_cons (splits : Splits rest pieces) :
    numbersApart (piece :: pieces) ↔
      (piece.kind = .number → startsName rest = false) ∧ numbersApart pieces := by
  rw [splits.startsName_eq, numbersApart]
  cases pieces.head?.any (·.kind == .ident) <;> simp

/-- Edited text that splits again, in the place of a text behind every token. -/
structure Relexed (text edited : List Char) (pieces : List Lexeme) : Prop where
  splits : Splits edited pieces
  apart : numbersApart pieces = true
  replaces : Replaces text edited

theorem relexed_nil : Relexed [] [] [] :=
  ⟨.nil, rfl, .refl []⟩

section Relexed

variable (leads : frontToken (piece.text ++ rest) = (piece.kind, piece.text.length))
  (relexed : Relexed rest other others)

include leads relexed

theorem Relexed.keep (apart : piece.kind = .number → startsName rest = false) :
    Relexed (piece.text ++ rest) (piece.text ++ other) (piece :: others) := by
  have otherApart : piece.kind = .number → startsName other = false := by
    intro number
    rw [relexed.replaces.startsName_eq, apart number]
  refine ⟨.cons ?_ relexed.splits, ?_, relexed.replaces.append _⟩
  · exact frontToken_of_resembles leads relexed.replaces.toResembles
      (fun _ => relexed.replaces.names) otherApart
  · exact relexed.splits.numbersApart_cons.mpr ⟨otherApart, relexed.apart⟩

/-- A name takes the place of a name. -/
theorem Relexed.rename {name : List Char} (named : isName name) (ident : piece.kind = .ident) :
    Relexed (piece.text ++ rest) (name ++ other) (⟨.ident, name⟩ :: others) := by
  rw [ident] at leads
  have stops := relexed.replaces.word_stops (word_stops leads)
  refine ⟨.cons (frontToken_name named stops) relexed.splits, ?_, ?_⟩
  · exact relexed.splits.numbersApart_cons.mpr ⟨nofun, relexed.apart⟩
  grind [replaces_of_names, isName.startsName, isName_of_frontToken]

end Relexed

/-- The lexemes of a text that ends with a line, or of none. -/
def settled (pieces : List Lexeme) : Bool :=
  pieces.getLast?.all (·.kind == .newline)

/-- The last lexeme is whole whatever follows, and holds a character that no lexeme in front
of it looks past. -/
def Sealed (pieces : List Lexeme) : Prop :=
  ∀ piece, pieces.getLast? = some piece →
    (∃ c ∈ piece.text, c ≠ '\\' ∧ c ≠ '\r' ∧ isGap c = false) ∧
      ∀ other, frontToken (piece.text ++ other) = (piece.kind, piece.text.length)

theorem replaces_append (mem : c ∈ text)
    (plain : c ≠ '\\' ∧ c ≠ '\r' ∧ isGap c = false) (other : List Char) :
    Replaces text (text ++ other) where
  toResembles := by
    have resembles := resembles_append mem plain.1 plain.2.1 [] other
    rwa [append_nil] at resembles
  names := by
    have stops : text.dropWhile isGap ≠ [] :=
      dropWhile_ne_nil fun all => by rw [all c mem] at plain; cases plain.2.2
    rw [namesAhead, namesAhead, dropWhile_append_of_ne_nil stops]
    obtain ⟨c, others, shape⟩ := exists_cons_of_ne_nil stops
    rw [shape]
    exact id

theorem numbersApart_append_of_last
    (last : ∀ piece, pieces.getLast? = some piece → piece.kind ≠ .number) :
    numbersApart (pieces ++ others) = (numbersApart pieces && numbersApart others) := by
  induction pieces with
  | nil => rfl
  | cons piece rest ih =>
    cases rest with
    | nil => simp_all [numbersApart]
    | cons second further => grind [numbersApart]

theorem numbersApart_append (isSettled : settled pieces) :
    numbersApart (pieces ++ others) = (numbersApart pieces && numbersApart others) := by
  refine numbersApart_append_of_last fun piece last => ?_
  simp_all [settled]

theorem numbersApart_parts (apart : numbersApart (pieces ++ others)) :
    numbersApart pieces ∧ numbersApart others := by
  induction pieces with
  | nil => exact ⟨rfl, apart⟩
  | cons piece rest ih =>
    simp only [cons_append, numbersApart, Bool.and_eq_true] at apart ⊢
    obtain ⟨restApart, othersApart⟩ := ih apart.2
    refine ⟨⟨?_, restApart⟩, othersApart⟩
    cases rest with
    | nil => simp
    | cons second further => exact apart.1

end WebShader.Token

namespace WebShader.Token

open List Text

variable {others pieces : List Lexeme} {text : List Char}

/-! Measures that stop at a character. -/

/-- A measure does not look at a character, nor behind it. -/
def StopsAt {α : Type} (c : Char) (measure : List Char → α) : Prop :=
  ∀ front rest, measure (front ++ c :: rest) = measure front

def endsNumbers (c : Char) : Bool :=
  !(isDigit c || isHexDigit c || ".+-xXuUlLfFhHeE".toList.contains c)

section Numbers

variable {c : Char}

variable (ends : endsNumbers c = true)

include ends

theorem number?_stopsAt : StopsAt c number? := by
  have letters : ∀ d ∈ ['0', '.', '+', '-', 'x', 'X', 'u', 'U', 'l', 'L', 'f', 'F', 'h', 'H', 'e', 'E'],
      c ≠ d := by
    refine @ne_of_all (!endsNumbers ·) _ c (by decide) ?_
    rw [ends]
    rfl
  simp only [mem_cons] at letters
  simp only [endsNumbers, Bool.not_eq_true', Bool.or_eq_false_iff] at ends
  obtain ⟨⟨notDigit, notHex⟩, -⟩ := ends
  intro front rest
  rw [Mode.number?_eq, Mode.number?_eq]
  refine @Mode.longest_stopsAt .number c (fun mode => mode.family = .number ∨ mode = .done)
    ?_ ?_ (.inl rfl) front rest
  · intro mode later d inside step
    rcases inside with isNumber | rfl
    · rcases (Mode.next_parts step).2 with closed | same | ⟨-, directive⟩
      · exact .inr (Mode.eq_done closed)
      · exact .inl (same.trans isNumber)
      grind
    · cases step
  · intro mode inside
    rcases inside with isNumber | rfl
    · cases mode <;> simp [Mode.family] at isNumber <;>
        grind [Mode.next, Mode.afterDigit, Mode.suffix]
    · rfl

/-- A number does not see what follows a text that holds such a character. -/
theorem number?_append (mem : c ∈ text) (other : List Char) :
    number? (text ++ other) = number? text := by
  obtain ⟨front, rest, rfl⟩ := append_of_mem mem
  rw [append_assoc, cons_append, number?_stopsAt ends, number?_stopsAt ends]

end Numbers

/-! Whole lexemes at the end. -/

/-- The last lexeme is whole whatever follows, and no number in front of it looks past it. -/
def Closed (pieces : List Lexeme) : Prop :=
  Sealed pieces ∧ ∀ piece, pieces.getLast? = some piece → ∃ c ∈ piece.text, endsNumbers c = true

theorem Closed.tail {piece second : Lexeme} (closed : Closed (piece :: second :: pieces)) :
    Closed (second :: pieces) := by
  rwa [Closed] at closed

/-- The text holds what its last lexeme holds. -/
theorem Splits.exists_mem {wanted : Char → Prop} (splits : Splits text pieces) (present : pieces ≠ [])
    (last : ∀ piece, pieces.getLast? = some piece → ∃ c ∈ piece.text, wanted c) :
    ∃ c ∈ text, wanted c := by
  obtain ⟨c, mem, holds⟩ := last _ (getLast?_eq_some_getLast present)
  rw [← splits.text_eq]
  grind

/-- Behind a text that ends with a whole lexeme, any text splits as it does alone. -/
theorem Splits.append_closed {other : List Char} (splits : Splits text pieces)
    (closed : Closed pieces) (further : Splits other others) :
    Splits (text ++ other) (pieces ++ others) := by
  induction splits with
  | nil => exact further
  | @cons kind front rest pieces leads splits ih =>
    rw [append_assoc]
    cases pieces with
    | nil =>
      obtain rfl : rest = [] := by cases splits; rfl
      exact .cons ((closed.1 _ rfl).2 other) further
    | cons second later =>
      obtain ⟨c, mem, plain⟩ := splits.exists_mem (cons_ne_nil _ _)
        fun piece last => (closed.tail.1 piece last).1
      obtain ⟨d, stop, ends⟩ := splits.exists_mem (cons_ne_nil _ _) closed.tail.2
      have replaces := replaces_append mem plain other
      refine .cons ?_ (ih closed.tail)
      refine frontToken_of_reaches leads replaces.toResembles (fun _ => replaces.names) ?_
      rintro ⟨length, measured, longer⟩
      refine ⟨length, ?_, longer⟩
      rwa [← append_assoc, number?_append ends (mem_append_right front stop)] at measured

theorem closed_singleton {c : Char} (whole : ∀ other, frontToken (c :: other) = (.punct, 1))
    (plain : c ≠ '\\' ∧ c ≠ '\r' ∧ isGap c = false) (ends : endsNumbers c) :
    Closed [⟨.punct, [c]⟩] := by
  constructor
  · intro piece last
    grind
  grind

theorem closed_of_getLast? (closed : Closed others) (present : others ≠ []) :
    Closed (pieces ++ others) := by simp_all [Closed, Sealed]

theorem closed_nil : Closed [] := by
  constructor
  · intro piece last
    cases last
  · intro piece last
    cases last

/-- A text that ends with its line is closed. -/
theorem Splits.closed_of_settled (splits : Splits text pieces) (isSettled : settled pieces) :
    Closed pieces := by
  have whole : ∀ piece, pieces.getLast? = some piece → '\n' ∈ piece.text ∧
      ∀ other, frontToken (piece.text ++ other) = (piece.kind, piece.text.length) := by
    intro piece last
    have kind : piece.kind = .newline := by simpa [settled, last] using isSettled
    obtain ⟨rest, -, leads, -⟩ := (splits.singleton (mem_of_getLast? last)).cons_inv
    rw [kind] at leads ⊢
    refine ⟨?_, frontToken_lineEnd leads⟩
    have measured : newline? piece.text = some piece.text.length :=
      measureOf_frontToken (frontToken_alone leads) (by decide)
    grind [newline?_cases]
  exact ⟨fun piece last => ⟨⟨'\n', (whole piece last).1, by decide⟩, (whole piece last).2⟩,
    fun piece last => ⟨'\n', (whole piece last).1, by decide⟩⟩

/-- Behind a line end any text splits as it does alone. -/
theorem Splits.append {other : List Char} (splits : Splits text pieces) (isSettled : settled pieces)
    (further : Splits other others) : Splits (text ++ other) (pieces ++ others) :=
  splits.append_closed (splits.closed_of_settled isSettled) further

theorem lexemes_append (isSettled : settled (lexemes text)) (other : List Char) :
    lexemes (text ++ other) = lexemes text ++ lexemes other :=
  ((splits_lexemes text).append isSettled (splits_lexemes other)).lexemes_eq

end WebShader.Token
