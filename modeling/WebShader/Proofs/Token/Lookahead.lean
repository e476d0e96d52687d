import WebShader.Proofs.Token.Reach

/-!
Contract: what a front token depends on behind its last character.

Owns: the long punctuators and the numbers with respect to texts that resemble
each other, and that a front token stays when its rest is replaced.
-/

namespace WebShader.Token

open List Text Mode

variable {mode : Mode} {c : Char} {front other rest taken text : List Char} {length : Nat}
  {kind : TokenKind} {classes : List (TokenKind × (List Char → Option Nat))}
  {inClass : Char → Bool}

theorem ident?_isSome (starts : startsName text) : ∃ length, ident? text = some (1 + length) := by
  cases text with
  | nil => cases starts
  | cons c others => exact ⟨runLength Text.isWord others, if_pos starts⟩

theorem dropWhile_ne_nil (other : ¬∀ c ∈ front, inClass c) : front.dropWhile inClass ≠ [] := by
  have all := @List.takeWhile_append_dropWhile _ inClass front
  grind [all_takeWhile]

theorem dropWhile_append_of_ne_nil (stops : front.dropWhile inClass ≠ []) (text : List Char) :
    (front ++ text).dropWhile inClass = front.dropWhile inClass ++ text := by
  rw [dropWhile_append, if_neg (by simpa using stops)]

/-! Long punctuators. -/

theorem longPunctuators_prefix : ∀ punctuator ∈ longPunctuators, ∀ count < 4,
    2 ≤ count → count ≤ punctuator.length →
      (String.ofList (punctuator.toList.take count)) ∈ longPunctuators := by
  decide

theorem longPunctuators_plain : ∀ punctuator ∈ longPunctuators, ∀ c ∈ punctuator.toList,
    isNameStart c = false ∧ isInert c = false := by
  have all : (longPunctuators.all fun punctuator =>
      punctuator.toList.all fun c => !isNameStart c && !isInert c) := by decide
  grind

theorem longPunctuators_sorted :
    longPunctuators.Pairwise fun first second => second.length ≤ first.length := by
  decide

theorem length_le_of_find? {words : List String} {test : String → Bool} {found word : String}
    (sorted : words.Pairwise fun first second => second.length ≤ first.length)
    (search : words.find? test = some found) (mem : word ∈ words) (passes : test word) :
    word.length ≤ found.length := by
  obtain ⟨-, before, after, rfl, others⟩ := find?_eq_some_iff_append.mp search
  rcases mem_append.mp mem with earlier | later
  · grind
  · rcases mem_cons.mp later with rfl | further
    · exact Nat.le_refl _
    · exact (pairwise_cons.mp (pairwise_append.mp sorted).2.1).1 word further

theorem longPunct?_reaches (resembles : Resembles rest other) (present : taken ≠ [])
    (reaches : Reaches longPunct? taken other) : Reaches longPunct? taken rest := by
  obtain ⟨length, measured, longer⟩ := reaches
  obtain ⟨punctuator, -, listed, opens, rfl⟩ := exists_of_longPunct? measured
  have bounds := longPunctuators_length punctuator listed
  obtain ⟨c, tail, spelled⟩ : ∃ c tail, punctuator.toList = taken ++ c :: tail := by
    obtain ⟨behind, same⟩ : taken <+: punctuator.toList :=
      List.prefix_of_prefix_length_le ⟨_, rfl⟩ opens (by rw [String.length_toList]; omega)
    cases behind with
    | nil =>
      rw [append_nil] at same
      rw [← String.length_toList, ← same] at longer
      omega
    | cons c tail => exact ⟨c, tail, same.symm⟩
  have plain := longPunctuators_plain punctuator listed c (by rw [spelled]; simp)
  obtain ⟨behind, whole⟩ := opens
  rw [spelled, append_assoc] at whole
  obtain ⟨further, rfl⟩ := resembles.eq_cons (append_cancel_left whole).symm plain.1 plain.2
  -- What is taken and the character after it are a punctuator of their own.
  have short : String.ofList (taken ++ [c]) ∈ longPunctuators := by
    have counted := longPunctuators_prefix punctuator listed (taken.length + 1) (by omega)
      (by have := length_pos_iff.mpr present; omega) (by omega)
    rwa [spelled, take_append, take_of_length_le (by omega), Nat.add_sub_cancel_left] at counted
  have passes : (String.ofList (taken ++ [c])).toList.isPrefixOf (taken ++ c :: further) := by
    rw [List.isPrefixOf_iff_prefix]
    exact ⟨further, by simp⟩
  cases search : longPunctuators.find? fun word => word.toList.isPrefixOf (taken ++ c :: further) with
  | none => exact absurd passes (find?_eq_none.mp search _ short)
  | some word =>
    have atLeast := length_le_of_find? longPunctuators_sorted search short passes
    refine ⟨word.length, by rw [longPunct?, search]; rfl, ?_⟩
    rw [String.length_ofList, length_append, length_singleton] at atLeast
    omega

theorem firstClass_stops (lawful : ∀ lexicalClass ∈ classes, Lawful lexicalClass.2)
    (reaches : ∀ lexicalClass ∈ classes, Reaches lexicalClass.2 taken other →
      Reaches lexicalClass.2 taken rest)
    (within : ∀ token, firstClass classes (taken ++ rest) = some token → token.2 ≤ taken.length)
    {token : TokenKind × Nat} (found : firstClass classes (taken ++ other) = some token) :
    token.2 ≤ taken.length := by
  induction classes with
  | nil => cases found
  | cons lexicalClass others ih =>
    have here := lawful lexicalClass (by simp)
    have n := ih (fun one listed => lawful one (by simp [listed]))
      (fun one listed => reaches one (by simp [listed]))
    simp only [firstClass, findSome?_cons] at found within
    cases measured : lexicalClass.2 (taken ++ other) with
    | some length =>
      rw [measured] at found
      cases found
      apply Nat.le_of_not_lt
      intro longer
      obtain ⟨further, also, beyond⟩ := reaches lexicalClass (by simp) ⟨length, measured, longer⟩
      grind
    | none =>
      rw [measured] at found
      refine n ?_ found
      intro one leads
      cases also : lexicalClass.2 (taken ++ rest) with
      | none =>
        rw [also] at within
        exact within one leads
      | some length =>
        have atMost := within (lexicalClass.1, length) (by rw [also]; rfl)
        obtain ⟨further, extended⟩ := here.extend other (here.cut also atMost)
        rw [measured] at extended
        cases extended

/-- Characters that may open a comment, a string, a line end or blanks. -/
def layoutOpeners : List Char :=
  ['/', '"', '\n', '\r', '\\', ' ', '\t', '\x0c', '\x0b']

def opensCode (c : Char) : Bool :=
  !layoutOpeners.contains c

theorem opensCode_of_class (outside : layoutOpeners.any inClass = false)
    (mem : inClass c) : opensCode c := by grind [opensCode]

theorem frontToken_code (code : opensCode c) (text : List Char) :
    frontToken (c :: text) = (firstClass [(.number, number?), (.ident, ident?),
      (.punct, longPunct?), (.directive, directive?)] (c :: text)).getD (.punct, 1) := by
  simp only [opensCode, layoutOpeners, contains_eq_mem, mem_cons, Bool.not_eq_true', decide_eq_false_iff_not, not_or] at code
  have closed : comment.next c = none ∧ string.next c = none ∧
      newline.next c = none ∧ whitespace.next c = none := by
    simp [Mode.next, isInlineBlank, code]
  simp [frontToken_eq, firstClass, lexicalClasses, comment?_eq, string?_eq, newline?_eq,
    whitespace?_eq, longest, closed, here, accepts]

theorem number?_eq_none (notDigit : isDigit c = false) (notPoint : c ≠ '.') (text : List Char) :
    number? (c :: text) = none := by
  have notZero : c ≠ '0' := by rintro rfl; cases notDigit
  simp [number?_eq, longest, Mode.next, notDigit, notPoint, notZero, here, accepts]

/-- What opens a number is taken as a number. -/
theorem frontToken_number (measured : number? text = some length) :
    frontToken text = (.number, length) := by
  cases text with
  | nil => cases measured
  | cons c others =>
    have code : opensCode c := by
      cases digit : isDigit c with
      | true => exact opensCode_of_class (by decide) digit
      | false =>
        by_cases point : c = '.'
        · subst point
          rfl
        grind [number?_eq_none]
    rw [frontToken_code code]
    simp only [firstClass, findSome?_cons, measured, Option.map_some, Option.getD_some]

theorem digit_not_name (digit : isDigit c) : isNameStart c = false := by
  cases name : isNameStart c with
  | false => rfl
  | true =>
    simp only [isDigit, digitValue?] at digit
    simp only [isNameStart, isAsciiLetter, Bool.or_eq_true, beq_iff_eq] at name
    rcases name with letter | rfl
    · grind
    · cases digit

/-- What numbers start with and is no number is a point. -/
theorem Mode.run_number_none (present : taken ≠ []) (reached : number.run taken = some mode)
    (none : number.longest (taken ++ rest) = none) : taken = ['.'] ∧ mode = .point := by
  obtain ⟨c, tail, rfl⟩ := exists_cons_of_ne_nil present
  obtain ⟨first, step, further⟩ := Option.bind_eq_some_iff.mp reached
  have notAccepted : first.accepts = false := by
    apply Bool.eq_false_iff.mpr
    intro accepts
    obtain ⟨length, found⟩ :=
      Option.ne_none_iff_exists'.mp (longest_ne_none accepts (tail ++ rest))
    simp [longest, step, found] at none
  obtain ⟨rfl, rfl⟩ : c = '.' ∧ first = .point := by grind [Mode.next, accepts]
  cases tail with
  | nil =>
    cases further
    exact ⟨rfl, rfl⟩
  | cons d others =>
    obtain ⟨second, goes, -⟩ := Option.bind_eq_some_iff.mp further
    have accepts : second.accepts := by grind [Mode.next, accepts]
    simp_all [longest_ne_none, longest]

theorem number?_reaches (leads : frontToken (taken ++ rest) = (kind, taken.length))
    (resembles : Resembles rest other) (present : taken ≠ [])
    (apart : kind = .number → startsName other = false) (reaches : Reaches number? taken other) :
    Reaches number? taken rest := by
  rw [funext number?_eq] at reaches ⊢
  obtain ⟨mode, reached, goesOn⟩ := reaches_iff.mp reaches
  refine reaches_iff.mpr ⟨mode, reached, ?_⟩
  cases whole : number.longest (taken ++ rest) with
  | some length =>
    rw [← number?_eq] at whole
    rw [frontToken_number whole] at leads
    obtain ⟨rfl, rfl⟩ := Prod.mk.inj leads
    rw [number?_eq] at whole
    obtain ⟨same, further, run, behind, counted⟩ := exists_run whole (Nat.le_refl _)
    obtain rfl : further = 0 := by omega
    rw [reached] at run
    cases run
    have accepts := accepts_of_longest behind
    rcases (run_parts reached).2 with closed | isNumber | ⟨-, other⟩
    · obtain rfl := eq_done closed
      obtain ⟨length, more⟩ := goesOn
      rw [longest_done] at more
      cases more
    · exact goesOn_number resembles.head (apart rfl) isNumber accepts goesOn
    · cases other
  | none =>
    obtain ⟨rfl, rfl⟩ := run_number_none present reached whole
    cases other with
    | nil => exact absurd goesOn not_goesOn_nil
    | cons d others =>
      obtain ⟨later, step, -⟩ := goesOn_cons.mp goesOn
      obtain ⟨digit, rfl⟩ : isDigit d ∧ later = .fraction := by grind [Mode.next]
      obtain ⟨further, rfl⟩ := resembles.eq_cons rfl (digit_not_name digit) (not_inert (by decide) digit)
      exact goesOn_cons.mpr ⟨_, step, longest_ne_none rfl further⟩

/-- A front token stays when a text that resembles its rest takes the place of that, and a number
does not reach into it. Behind a hash no name may come where there was none. -/
theorem frontToken_of_reaches (leads : frontToken (taken ++ rest) = (kind, taken.length))
    (resembles : Resembles rest other)
    (names : taken.head? = some '#' → namesAhead other → namesAhead rest)
    (numbers : Reaches number? taken other → Reaches number? taken rest) :
    frontToken (taken ++ other) = (kind, taken.length) := by
  have present : taken ≠ [] := by
    have positive := frontToken_positive (taken ++ rest)
    rw [leads] at positive
    exact length_pos_iff.mp positive
  have reaches : ∀ lexicalClass ∈ lexicalClasses, Reaches lexicalClass.2 taken other →
      Reaches lexicalClass.2 taken rest := by
    have modes (mode : Mode) (notNumber : mode.family ≠ .number)
        (notDirective : mode.family ≠ .directive) (reaches : Reaches mode.longest taken other) :
        Reaches mode.longest taken rest :=
      reaches_of_resembles resembles present notNumber
        (fun directive => absurd directive notDirective) reaches
    simp only [lexicalClasses, mem_cons, not_mem_nil, or_false, forall_eq_or_imp,
      forall_eq, funext comment?_eq, funext string?_eq, funext newline?_eq,
      funext whitespace?_eq, funext ident?_eq, funext directive?_eq]
    refine ⟨modes .comment (by decide) (by decide), modes .string (by decide) (by decide),
      modes .newline (by decide) (by decide), modes .whitespace (by decide) (by decide), numbers,
      modes .ident (by decide) (by decide), longPunct?_reaches resembles present, ?_⟩
    intro reaches
    refine reaches_of_resembles resembles present (by decide) (fun _ => names ?_) reaches
    obtain ⟨later, reached, -⟩ := reaches_iff.mp reaches
    obtain ⟨c, tail, rfl⟩ := exists_cons_of_ne_nil present
    obtain ⟨first, step, -⟩ := Option.bind_eq_some_iff.mp reached
    obtain rfl : c = '#' := by grind [Mode.next]
    rfl
  have within : (frontToken (taken ++ other)).2 ≤ taken.length := by
    rw [frontToken_eq]
    cases found : firstClass lexicalClasses (taken ++ other) with
    | none => exact length_pos_iff.mpr present
    | some token =>
      refine firstClass_stops lexicalClasses_lawful reaches ?_ found
      intro one leading
      rw [frontToken_eq, leading] at leads
      cases leads
      exact Nat.le_refl _
  have alone : frontToken taken = frontToken (taken ++ rest) :=
    frontToken_cut (Nat.le_of_eq (congrArg Prod.snd leads))
  rw [← frontToken_cut within, alone, leads]

/-- A front token stays when a text that resembles its rest takes the place of
that. In front of a number no name may come, and behind a hash no name where
there was none. -/
theorem frontToken_of_resembles (leads : frontToken (taken ++ rest) = (kind, taken.length))
    (resembles : Resembles rest other)
    (names : taken.head? = some '#' → namesAhead other → namesAhead rest)
    (apart : kind = .number → startsName other = false) :
    frontToken (taken ++ other) = (kind, taken.length) := by
  grind [frontToken_positive, frontToken_of_reaches, number?_reaches]

end WebShader.Token
