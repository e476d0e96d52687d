import Mathlib.Algebra.Ring.Nat
import WebShader.Decimal.Shortest
import WebShader.Proofs.Text.Lines

/-!
Contract: the characters of written numbers, and integers that are read back.

Owns: that decimal digits carry the value they were written for, and which
characters the text of a double may have.

Does not own: that the text of a double reads back; a caller who needs it says
for which doubles.
-/

namespace WebShader.Decimal

open List Text

variable {c : Char} {digits : List Char}

/-! Digits. -/

theorem isAsciiDigit_of_isDigit (digit : c.isDigit) : isAsciiDigit c := by
  simp_all [Char.isDigit, UInt32.le_iff_toNat_le, isAsciiDigit]

theorem isAsciiDigit_of_mem_toDigits {number : Nat} (mem : c ∈ Nat.toDigits 10 number) :
    isAsciiDigit c :=
  isAsciiDigit_of_isDigit (Nat.isDigit_of_mem_toDigits (by decide) (by decide) mem)

theorem toDigits_ne_nil (number : Nat) : Nat.toDigits 10 number ≠ [] :=
  length_pos_iff.mp Nat.length_toDigits_pos

theorem toDigits_injective {first second : Nat}
    (same : Nat.toDigits 10 first = Nat.toDigits 10 second) : first = second := by
  have values := congrArg (Nat.ofDigitChars 10 · 0) same
  simpa only [Nat.ofDigitChars_toDigits (show 1 < 10 by decide) (Nat.le_refl 10)] using values

section Digit

variable {c : Char} (digit : isAsciiDigit c = true)

include digit

theorem digit_bounds : 48 ≤ c.toNat ∧ c.toNat ≤ 57 := by
  simpa [isAsciiDigit] using digit

theorem digit_ne {other : Char} (plain : isAsciiDigit other = false) : c ≠ other := by
  rintro rfl
  rw [digit] at plain
  cases plain

theorem isBlank_of_digit : isBlank c = false := by grind [digit_bounds, isBlank]

theorem toAsciiDigit_of_digit : toAsciiDigit c = c := by
  obtain ⟨low, high⟩ := digit_bounds digit
  have value : digitValue? c = some (c.toNat - 48) := by
    simp only [digitValue?]
    rw [if_pos (by omega), if_pos (by simp [low, high])]
  grind [toAsciiDigit, Char.ofNat_toNat]

theorem digitInBase?_of_digit : digitInBase? 10 c = some (c.toNat - '0'.toNat) := by
  obtain ⟨low, high⟩ := digit_bounds digit
  have value : hexValue? c = some (c.toNat - 48) := by
    simp only [hexValue?]
    rw [if_pos (by simp [low, high])]
  rw [digitInBase?]
  grind

end Digit

/-- Digits are read with their value. -/
theorem natInBase?_of_digits (present : digits ≠ []) (all : ∀ c ∈ digits, isAsciiDigit c) :
    natInBase? 10 digits = some (Nat.ofDigitChars 10 digits 0) := by
  have values : digits.mapM (digitInBase? 10) = some (digits.map (·.toNat - '0'.toNat)) := by
    clear present
    induction digits with
    | nil => rfl
    | cons c rest ih => grind [digitInBase?_of_digit]
  have sums : ∀ start : Nat, (digits.map (·.toNat - '0'.toNat)).foldl
      (fun value digit => value * 10 + digit) start = Nat.ofDigitChars 10 digits start := by
    clear values present all
    induction digits with
    | nil => exact fun _ => rfl
    | cons c rest ih =>
      intro start
      rw [map_cons, foldl_cons, ih, Nat.ofDigitChars_cons, Nat.mul_comm]
  rw [natInBase?, if_neg (by simpa using present), values]
  exact congrArg some (sums 0)

theorem natInBase?_toDigits (number : Nat) :
    natInBase? 10 (Nat.toDigits 10 number) = some number := by
  rw [natInBase?_of_digits (toDigits_ne_nil number) fun _ => isAsciiDigit_of_mem_toDigits,
    Nat.ofDigitChars_toDigits (by decide) (by decide)]

theorem withoutUnderscores?_of_digits (all : ∀ c ∈ digits, isAsciiDigit c)
    (afterDigit : Bool) : withoutUnderscores? isAsciiDigit afterDigit digits = some digits := by
  induction digits generalizing afterDigit with
  | nil => rfl
  | cons c rest ih =>
    have plain : c ≠ '_' := digit_ne (all c (by simp)) (by decide)
    simp_all [withoutUnderscores?.eq_3]

/-! Integers. -/

/-- The digits of a number, with a sign in front or not, are not changed before
they are read. -/
theorem numberCharacters_signed {sign : List Char} (signs : sign = [] ∨ sign = ['-'])
    (all : ∀ c ∈ digits, isAsciiDigit c) :
    numberCharacters (sign ++ digits) = sign ++ digits := by
  have each : ∀ c ∈ sign ++ digits, isNumberBlank c = false ∧ toAsciiDigit c = c := by
    intro c mem
    rcases mem_append.mp mem with inSign | inDigits
    · rcases signs with rfl | rfl
      · cases inSign
      · obtain rfl := mem_singleton.mp inSign
        exact ⟨by decide, by decide⟩
    · grind [isNumberBlank, isBlank_of_digit, toAsciiDigit_of_digit]
  rw [numberCharacters, trimWhere_of_none fun c mem => (each c mem).1]
  rw [map_congr_left fun c mem => (each c mem).2, map_id']

theorem splitSign_of_digits (all : ∀ c ∈ digits, isAsciiDigit c) :
    splitSign digits = (false, digits) := by
  unfold splitSign
  split
  · exact absurd (all '-' (by simp)) (by decide)
  · exact absurd (all '+' (by simp)) (by decide)
  · rfl

theorem readInt?_of_parts {text : String} {sign : List Char} {number : Nat}
    (shape : text.toList = sign ++ Nat.toDigits 10 number)
    (signs : sign = [] ∨ sign = ['-']) (fits : number < 10 ^ maxIntegerDigits) :
    readInt? text = some (applySign (sign == ['-']) number) := by
  have all : ∀ c ∈ Nat.toDigits 10 number, isAsciiDigit c := fun _ => isAsciiDigit_of_mem_toDigits
  have split : splitSign (sign ++ Nat.toDigits 10 number) =
      (sign == ['-'], Nat.toDigits 10 number) := by
    rcases signs with rfl | rfl
    · exact splitSign_of_digits all
    · rfl
  have short : ¬ maxIntegerDigits < (Nat.toDigits 10 number).length :=
    Nat.not_lt.mpr ((Nat.length_toDigits_le_iff (by decide) (by decide)).mpr fits)
  simp_all [readInt?, numberCharacters_signed, withoutUnderscores?_of_digits, natInBase?_toDigits]

/-- An integer within the limit of digits is read back from its text. -/
theorem readInt?_toString {number : Int} (fits : number.natAbs < 10 ^ maxIntegerDigits) :
    readInt? (toString number) = some number := by
  rw [Int.toString_eq_repr, Int.repr_eq_if]
  split
  next positive =>
    rw [@readInt?_of_parts _ [] _ Nat.toList_repr (.inl rfl) (by omega)]
    exact congrArg some (by simp [applySign]; omega)
  next negative =>
    rw [@readInt?_of_parts _ ['-'] (-number).toNat
      (by rw [String.toList_append, Nat.toList_repr]; rfl) (.inr rfl) (by omega)]
    exact congrArg some (by simp [applySign]; omega)

/-! Doubles. -/

def isNumeric (c : Char) : Bool :=
  isAsciiDigit c || ['.', 'e', '+', '-', 'n', 'a', 'i', 'f'].contains c

theorem isNumeric_of_digit (digit : isAsciiDigit c) : isNumeric c := by
  rw [isNumeric, digit, Bool.true_or]

theorem isNumeric_of_mem_toDigits {number : Nat} (mem : c ∈ Nat.toDigits 10 number) :
    isNumeric c :=
  isNumeric_of_digit (isAsciiDigit_of_mem_toDigits mem)

theorem isNumeric_of_mem_zeros {count : Nat} (mem : c ∈ List.replicate count '0') :
    isNumeric c := by
  rw [eq_of_mem_replicate mem]
  decide

theorem isNumeric_exponentText (style : Style) (exponent : Int) :
    ∀ c ∈ style.exponentText exponent, isNumeric c := by
  intro c mem
  rcases mem_cons.mp mem with rfl | later
  · decide
  rcases mem_cons.mp later with rfl | digits
  · split <;> decide
  rcases mem_append.mp digits with padding | number
  · exact isNumeric_of_mem_zeros padding
  · exact isNumeric_of_mem_toDigits number

theorem isNumeric_layout (style : Style) (pos : Int) (all : ∀ c ∈ digits, isNumeric c) :
    ∀ c ∈ style.layout digits pos, isNumeric c := by
  intro c mem
  have point : isNumeric '.' := by decide
  have zero : isNumeric '0' := by decide
  have exponent := isNumeric_exponentText style (pos - 1) c
  simp only [Style.layout] at mem
  split at mem
  · split at mem
    · cases mem
    · grind
    grind
  · split at mem
    · rcases mem_append.mp mem with front | digit
      · rcases mem_cons.mp front with rfl | front
        · exact zero
        rcases mem_cons.mp front with rfl | front
        · exact point
        · exact isNumeric_of_mem_zeros front
      · exact all c digit
    · split at mem
      · rcases mem_append.mp mem with front | tail
        · rcases mem_append.mp front with digit | padding
          · exact all c digit
          · exact isNumeric_of_mem_zeros padding
        grind
      grind

theorem mem_of_mem_trimEndWhere {inClass : Char → Bool} {text : List Char}
    (mem : c ∈ trimEndWhere inClass text) : c ∈ text := by
  rw [trimEndWhere, mem_reverse] at mem
  exact mem_reverse.mp ((dropWhile_suffix inClass).subset mem)

/-- Every character of the text of a double is a digit, a sign, a point or a letter
of its special values. -/
theorem isNumeric_render (value : Float) : ∀ c ∈ (render value).toList, isNumeric c := by
  have body : ∀ magnitude : Float, ∀ c ∈ (if magnitude.isInf then "inf"
      else if magnitude == 0.0 then "0.0"
      else String.ofList (Style.plain.layout
        (trimEndWhere (· == '0') (Nat.toDigits 10 (shortest magnitude).digits))
        ((Nat.toDigits 10 (shortest magnitude).digits).length +
          (shortest magnitude).exponent))).toList, isNumeric c := by
    intro magnitude
    split
    · exact all_eq_true.mp (by decide)
    · split
      · exact all_eq_true.mp (by decide)
      · rw [String.toList_ofList]
        exact isNumeric_layout _ _ fun c mem =>
          isNumeric_of_mem_toDigits (mem_of_mem_trimEndWhere mem)
  intro c mem
  simp only [render] at mem
  split at mem
  · exact all_eq_true.mp (by decide) c mem
  · split at mem
    · rw [String.toList_append] at mem
      rcases mem_append.mp mem with sign | rest
      · rw [mem_singleton.mp sign]
        decide
      · exact body _ c rest
    · exact body _ c mem

theorem numeric_ne {other : Char} (numeric : isNumeric c) (plain : isNumeric other = false) :
    c ≠ other := by
  rintro rfl
  rw [numeric] at plain
  cases plain

theorem isBlank_of_numeric (numeric : isNumeric c) : isBlank c = false := by
  rw [isNumeric, Bool.or_eq_true] at numeric
  rcases numeric with digit | listed
  · exact isBlank_of_digit digit
  · simp only [contains_eq_mem, decide_eq_true_eq, mem_cons, not_mem_nil, or_false] at listed
    rcases listed with rfl | rfl | rfl | rfl | rfl | rfl | rfl | rfl <;> decide

end WebShader.Decimal
