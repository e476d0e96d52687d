import WebShader.Proofs.Token.Nesting

/-!
Contract: the lexemes of texts that are written from parts.

Owns: one step for each kind of part: names, blanks, line ends, punctuators that
stand alone, and texts that a semicolon ends.
-/

namespace WebShader.Token

open List Text

variable {c : Char} {pieces : List Lexeme} {text : List Char}

/-! Single lexemes. -/

theorem Splits.punct_cons (alone : standsAlone c)
    (splits : Splits text pieces) : Splits (c :: text) (punct c :: pieces) := by
  have leads : frontToken ([c] ++ text) = (.punct, [c].length) := frontToken_alone_punct alone text
  exact .cons leads splits

theorem Splits.word_append {name : String} (named : isName name.toList)
    (stops : text.head?.any Text.isWord = false) (splits : Splits text pieces) :
    Splits (name.toList ++ text) (word name :: pieces) :=
  .cons (frontToken_name named stops) splits

theorem Splits.blank_cons (plain : blankLength text = 0)
    (splits : Splits text pieces) : Splits (' ' :: text) (blank :: pieces) := by
  have length : blankLength (' ' :: text) = 1 := by
    rw [blankLength_cons (by decide), plain]
    rfl
  have leads : frontToken ([' '] ++ text) = (.whitespace, [' '].length) := by
    rw [singleton_append, frontToken_blank (by rw [length]; exact Nat.one_ne_zero), length]
    rfl
  exact .cons leads splits

theorem Splits.lineFeed_cons (splits : Splits text pieces) :
    Splits ('\n' :: text) (lineFeed :: pieces) := by
  have leads : frontToken (['\n'] ++ text) = (.newline, ['\n'].length) := frontToken_newline rfl
  exact .cons leads splits

theorem closed_punct (alone : standsAlone c) : Closed [punct c] := by
  have plain : (c != '\\' && c != '\r' && !isGap c && endsNumbers c) := by
    have all : "()[]\x7b\x7d;,".toList.all (fun c =>
        c != '\\' && c != '\r' && !isGap c && endsNumbers c) := by decide
    exact all_eq_true.mp all c (contains_iff_mem.mp alone)
  simp only [Bool.and_eq_true, Bool.not_eq_true', bne_iff_ne] at plain
  obtain ⟨⟨⟨notBackslash, notReturn⟩, notGap⟩, ends⟩ := plain
  exact closed_singleton (frontToken_alone_punct alone) ⟨notBackslash, notReturn, notGap⟩ ends

theorem closed_ended (pieces : List Lexeme) (alone : standsAlone c) :
    Closed (pieces ++ [punct c]) :=
  closed_of_getLast? (closed_punct alone) (cons_ne_nil _ _)

/-! Texts that a semicolon ends. -/

/-- Outside comments and strings no class takes a semicolon. -/
theorem Mode.longest_stopsAt_semicolon {mode : Mode}
    (code : mode.family ≠ .comment ∧ mode.family ≠ .string) : StopsAt ';' mode.longest := by
  refine @Mode.longest_stopsAt mode ';'
    (fun mode => mode.family ≠ .comment ∧ mode.family ≠ .string) ?_ ?_ code
  · intro mode later d code step
    rcases (Mode.next_parts step).2 with closed | same | ⟨word, -⟩
    · rw [closed]
      exact ⟨nofun, nofun⟩
    · rwa [same]
    · rw [word]
      exact ⟨nofun, nofun⟩
  · intro mode code
    cases mode with
    | longSuffix upper => cases upper <;> rfl
    | _ => first | rfl | simp [Mode.family] at code

theorem blankLength_stopsAt : StopsAt ';' blankLength := by
  intro front rest
  have same := @Mode.longest_stopsAt_semicolon .blank ⟨nofun, nofun⟩ front rest
  rw [Mode.longest_blank, Mode.longest_blank] at same
  exact Option.some.inj same

theorem isPrefixOf_stopsAt {wanted : List Char} (absent : ';' ∉ wanted) :
    StopsAt ';' wanted.isPrefixOf := by
  intro front rest
  induction wanted generalizing front with
  | nil => rw [isPrefixOf_nil_left, isPrefixOf_nil_left]
  | cons c others ih =>
    rcases front with _ | ⟨d, more⟩
    · grind
    grind

theorem longPunct?_stopsAt : StopsAt ';' longPunct? := by
  intro front rest
  have absent : ∀ punctuator ∈ longPunctuators, ';' ∉ punctuator.toList := by decide
  have found : ∀ punctuators ⊆ longPunctuators,
      punctuators.find? (·.toList.isPrefixOf (front ++ ';' :: rest)) =
        punctuators.find? (·.toList.isPrefixOf front) := by
    intro punctuators listed
    induction punctuators with
    | nil => rfl
    | cons punctuator others ih =>
      have here := absent punctuator (listed mem_cons_self)
      rw [find?_cons, find?_cons, isPrefixOf_stopsAt here,
        ih fun other mem => listed (mem_cons_of_mem _ mem)]
  rw [longPunct?, longPunct?, found longPunctuators (List.Subset.refl _)]

/-- A token other than a comment or a string ends in front of a semicolon. -/
theorem frontToken_stopsAt {front : List Char} (present : front ≠ [])
    (notComment : comment? front = none) (notString : string? front = none) (rest : List Char) :
    frontToken (front ++ ';' :: rest) = frontToken front := by
  have comment : comment? (front ++ ';' :: rest) = none := by
    cases measured : comment? (front ++ ';' :: rest) with
    | none => rfl
    | some length =>
      rcases comment?_cases measured with ⟨tail, shape, -⟩ | ⟨tail, shape, -⟩ <;>
        rcases front with _ | ⟨c, _ | ⟨d, others⟩⟩ <;> cases shape <;> cases notComment
  have string : string? (front ++ ';' :: rest) = none := by
    obtain ⟨c, others, rfl⟩ := exists_cons_of_ne_nil present
    by_cases quote : c = '"'
    · subst quote
      cases notString
    · simp [string?, quote]
  have modes (mode : Mode) (code : mode.family ≠ .comment ∧ mode.family ≠ .string) :=
    Mode.longest_stopsAt_semicolon code front rest
  simp only [frontToken_eq, firstClass, lexicalClasses, findSome?_cons, findSome?_nil,
    comment, string, notComment, notString, Mode.newline?_eq, Mode.whitespace?_eq, Mode.number?_eq,
    Mode.ident?_eq, Mode.directive?_eq, longPunct?_stopsAt front rest, modes .newline (by decide),
    modes .whitespace (by decide), modes .number (by decide), modes .ident (by decide),
    modes .directive (by decide)]

/-- A text without comments and strings splits in front of a semicolon as it does alone. -/
theorem Splits.append_semicolon {rest : List Char} {others : List Lexeme}
    (splits : Splits text pieces)
    (plain : ∀ piece ∈ pieces, piece.kind ≠ .comment ∧ piece.kind ≠ .string)
    (further : Splits rest others) :
    Splits (text ++ ';' :: rest) (pieces ++ punct ';' :: others) := by
  induction splits with
  | nil => exact further.punct_cons (by decide)
  | @cons kind front n pieces leads splits ih =>
    obtain ⟨notComment, notString⟩ := plain _ mem_cons_self
    have noComment : comment? (front ++ n) = none := by
      cases measured : comment? (front ++ n) with
      | none => rfl
      | some length =>
        have same := (frontToken_comment measured).symm.trans leads
        exact absurd (Prod.mk.inj same).1.symm notComment
    have noString : string? (front ++ n) = none := by
      cases measured : string? (front ++ n) with
      | none => rfl
      | some length =>
        have same : (TokenKind.string, length) = (kind, front.length) := by
          rw [← leads, frontToken_eq]
          simp [firstClass, lexicalClasses, noComment, measured]
        exact absurd (Prod.mk.inj same).1.symm notString
    have present : front ++ n ≠ [] :=
      fun empty => ne_nil_of_leads leads (append_eq_nil_iff.mp empty).1
    rw [append_assoc]
    refine .cons ?_ (ih (forall_mem_cons.mp plain).2)
    rw [← append_assoc, frontToken_stopsAt present noComment noString, leads]

/-! Names. -/

def namesApart : List Lexeme → Bool
  | first :: second :: rest =>
    !(first.kind == .ident && second.kind == .ident) && namesApart (second :: rest)
  | _ => true

theorem Splits.namesApart (splits : Splits text pieces) :
    namesApart pieces := by
  induction splits with
  | nil => rfl
  | @cons kind front n pieces leads splits ih =>
    cases splits with
    | nil => rfl
    | @cons nextKind next further others follows _ =>
      rw [Token.namesApart, ih, Bool.and_true]
      cases first : kind == .ident with
      | false => rfl
      | true =>
        rw [beq_iff_eq.mp first] at leads
        have stops := word_stops leads
        have notName : (nextKind == .ident) = false := by
          rw [beq_eq_false_iff_ne]
          rintro rfl
          have named := isName_of_frontToken follows
          obtain ⟨c, letters, rfl⟩ := exists_cons_of_ne_nil (ne_nil_of_leads follows)
          simp only [isName, all_cons, Bool.and_eq_true] at named
          simp [named.2.1] at stops
        rw [notName]
        rfl

end WebShader.Token
