import Mathlib.Algebra.Ring.Nat
import WebShader.Condition.Lexeme

/-!
Contract: integers in conditions.

Owns: the number that an integer's text denotes by place value, the shapes of
text that the lexical analysis takes for a number without a point, and the
agreement of both with the value a number is given.
-/

namespace WebShader.Condition

open List Text Decimal

variable {c : Char} {text : List Char} {base : Nat} {number : String}

/-- The number that digits denote by place value, if each is a digit of the base. -/
def positional? (digit? : Char → Option Nat) (base : Nat) : List Char → Option Nat
  | [] => some 0
  | c :: rest =>
    ((digit? c).filter (· < base)).bind fun digit =>
      (positional? digit? base rest).map fun others => digit * base ^ rest.length + others

/-- The number that an integer's text denotes. A leading zero before other digits marks
base eight; a decimal number has a limited length. -/
def literalValue? : List Char → Option Nat
  | '0' :: 'x' :: digits | '0' :: 'X' :: digits => positional? hexValue? 16 digits
  | '0' :: second :: digits => positional? digitValue? 8 ('0' :: second :: digits)
  | digits =>
    if digits.length ≤ maxIntegerDigits then positional? digitValue? 10 digits else none

/-! Place value and the running value of the digits read. -/

theorem foldl_base (base : Nat) (digits : List Nat) (value : Nat) :
    digits.foldl (fun value digit => value * base + digit) value =
      value * base ^ digits.length + valueInBase base digits := by
  rw [valueInBase]
  induction digits generalizing value with
  | nil => simp
  | cons digit rest ih => grind

theorem valueInBase_cons (base digit : Nat) (rest : List Nat) :
    valueInBase base (digit :: rest) =
      digit * base ^ rest.length + valueInBase base rest := by
  rw [valueInBase, foldl_cons, foldl_base]
  simp

theorem mapM_valueInBase (digit? : Char → Option Nat) (base : Nat) (text : List Char) :
    (text.mapM fun c => (digit? c).bind fun value => if value < base then some value else none).map
        (valueInBase base) =
      positional? digit? base text := by
  -- The number of digits is carried along, since it fixes the place of the next one.
  suffices both : (text.mapM fun c =>
        (digit? c).bind fun value => if value < base then some value else none).map
          (fun digits => (digits.length, valueInBase base digits)) =
        (positional? digit? base text).map (text.length, ·) by
    have second := congrArg (Option.map Prod.snd) both
    simpa only [Option.map_map, Function.comp_def, Option.map_id'] using second
  induction text with
  | nil => rfl
  | cons c rest ih =>
    rw [mapM_cons, positional?]
    cases digit? c with
    | none => rfl
    | some digit =>
      by_cases small : digit < base
      · rw [Option.filter_some, if_pos (by simpa using small)]
        simp only [Option.bind_some, if_pos small]
        generalize (rest.mapM _ : Option (List Nat)) = tail at ih ⊢
        cases tail with
        | none =>
          cases others : positional? digit? base rest with
          | none => rfl
          | some value =>
            rw [others] at ih
            cases ih
        | some digits =>
          cases others : positional? digit? base rest with
          | none =>
            rw [others] at ih
            cases ih
          | some value => grind [valueInBase_cons]
      grind

theorem digitsInBase?_eq (base : Nat) (text : List Char) :
    digitsInBase? base text = positional? digitValue? base text :=
  mapM_valueInBase digitValue? base text

theorem natInBase?_eq (present : text ≠ []) :
    natInBase? base text = positional? hexValue? base text := by
  rw [natInBase?, if_neg (by simpa using present)]
  exact mapM_valueInBase hexValue? base text

theorem positional?_isSome {digit? : Char → Option Nat}
    (digits : ∀ c ∈ text, ∃ value, digit? c = some value ∧ value < base) :
    ∃ number, positional? digit? base text = some number := by
  induction text with
  | nil => exact ⟨0, rfl⟩
  | cons c rest ih =>
    obtain ⟨digit, found, small⟩ := digits c mem_cons_self
    obtain ⟨others, value⟩ := ih (forall_mem_cons.mp digits).2
    simp_all [positional?, Option.filter_some]

theorem hexValue?_lt (hex : isHexDigit c) : ∃ value, hexValue? c = some value ∧ value < 16 := by
  obtain ⟨value, found⟩ := Option.isSome_iff_exists.mp hex
  refine ⟨value, found, ?_⟩
  simp only [hexValue?] at found
  grind

theorem digitValue?_lt (digit : isDigit c) : ∃ value, digitValue? c = some value ∧ value < 10 := by
  obtain ⟨value, found⟩ := Option.isSome_iff_exists.mp digit
  refine ⟨value, found, ?_⟩
  simp only [digitValue?] at found
  split at found
  · grind
  · obtain ⟨first, near, same⟩ := Option.map_eq_some_iff.mp found
    grind

/-! The shapes of text that a number has. -/

/-- A text of digits, or of hexadecimal digits behind their mark. -/
inductive IntegerText : List Char → Prop
  | digits {text : List Char} : text ≠ [] → (∀ c ∈ text, isDigit c = true) → IntegerText text
  | hexadecimal {mark : Char} {text : List Char} : mark = 'x' ∨ mark = 'X' → text ≠ [] →
      (∀ c ∈ text, isHexDigit c = true) → IntegerText ('0' :: mark :: text)

theorem take_runLength (inClass : Char → Bool) (text : List Char) :
    text.take (runLength inClass text) = text.takeWhile inClass := by
  exact (List.prefix_iff_eq_take.mp (List.takeWhile_prefix inClass)).symm

theorem mem_takeWhile (inClass : Char → Bool) (text : List Char) :
    ∀ c ∈ text.takeWhile inClass, inClass c :=
  all_eq_true.mp all_takeWhile

def hexLength : List Char → Nat
  | '0' :: mark :: rest => if mark == 'x' || mark == 'X' then runLength isHexDigit rest else 0
  | _ => 0

def plainLength (text : List Char) : Nat :=
  let whole := runLength isDigit text
  match text.drop whole with
  | '.' :: rest =>
    let fraction := runLength isDigit rest
    if whole == 0 && fraction == 0 then 0
    else
      let mantissa := whole + 1 + fraction
      mantissa + exponentLength (text.drop mantissa)
  | _ => whole

theorem numberLength_eq (text : List Char) :
    numberLength text = if hexLength text != 0 then 2 + hexLength text else plainLength text := rfl

theorem integerText_hex (present : hexLength text ≠ 0) :
    IntegerText (text.take (2 + hexLength text)) := by
  rw [hexLength.eq_def] at present ⊢
  split at present
  next mark rest =>
    split at present
    next marked =>
      rw [if_pos marked, Nat.add_comm 2, take_succ_cons, take_succ_cons, take_runLength]
      refine .hexadecimal (by simpa using marked) ?_ (mem_takeWhile isHexDigit rest)
      intro none
      exact present (by rw [runLength, none]; rfl)
    · exact absurd rfl present
  · exact absurd rfl present

/-- A point behind the first digits belongs to the number, if there is one. -/
theorem plainLength_cases (text : List Char) :
    plainLength text = runLength isDigit text ∨ plainLength text = 0 ∨
      ∃ further, plainLength text = runLength isDigit text + 1 + further ∧
        text[runLength isDigit text]? = some '.' := by
  rw [plainLength]
  dsimp only
  split
  next rest behind =>
    split
    · exact .inr (.inl rfl)
    · refine .inr (.inr ⟨_, Nat.add_assoc _ _ _, ?_⟩)
      rw [← Nat.add_zero (runLength isDigit text), ← getElem?_drop, behind]
      rfl
  · exact .inl rfl

theorem integerText_plain (present : plainLength text ≠ 0)
    (noPoint : '.' ∉ text.take (plainLength text)) :
    IntegerText (text.take (plainLength text)) := by
  rcases plainLength_cases text with whole | none | ⟨further, length, point⟩
  · rw [whole] at present
    rw [whole, take_runLength]
    refine .digits ?_ (mem_takeWhile isDigit text)
    intro none
    exact present (by rw [runLength, none]; rfl)
  · exact absurd none present
  · have taken : (text.take (plainLength text))[runLength isDigit text]? = some '.' := by
      rw [getElem?_take_of_lt (by omega), point]
    exact absurd (mem_of_getElem? taken) noPoint

theorem integerText_of_numberLength (present : numberLength text ≠ 0)
    (noPoint : '.' ∉ text.take (numberLength text)) :
    IntegerText (text.take (numberLength text)) := by
  rw [numberLength_eq] at present noPoint ⊢
  split
  next hex => exact integerText_hex (by simpa using hex)
  simp_all [integerText_plain]

theorem digit_ne_of_not {other : Char} (digit : isDigit c) (plain : isDigit other = false) :
    c ≠ other := by
  rintro rfl
  rw [digit] at plain
  cases plain

/-- Digits without a mark: base eight behind a leading zero, and base ten. -/
theorem numberValue_digits {text : String} (digits : ∀ c ∈ text.toList, isDigit c) :
    numberValue text =
      if 1 < text.toList.length ∧ text.toList.head? = some '0' then
        match positional? digitValue? 8 text.toList with
        | some value => .ok (.int value)
        | none => .error (.badOctal text)
      else if maxIntegerDigits < text.toList.length then
        .error (.tooManyDigits text.toList.length)
      else .ok (.int ((positional? digitValue? 10 text.toList).getD 0)) := by
  have noPoint : text.toList.contains '.' = false := by
    simp only [contains_eq_mem, decide_eq_false_iff_not]
    exact fun mem => digit_ne_of_not (digits _ mem) (by decide) rfl
  rw [numberValue]
  split
  next rest same =>
    rw [same] at digits
    exact absurd rfl (digit_ne_of_not (digits 'x' (by simp)) (by decide))
  next rest same =>
    rw [same] at digits
    exact absurd rfl (digit_ne_of_not (digits 'X' (by simp)) (by decide))
  · rw [noPoint, digitsInBase?_eq, digitsInBase?_eq]
    grind

theorem literalValue?_digits (digits : ∀ c ∈ text, isDigit c) :
    literalValue? text =
      if 1 < text.length ∧ text.head? = some '0' then positional? digitValue? 8 text
      else if text.length ≤ maxIntegerDigits then positional? digitValue? 10 text
      else none := by
  rw [literalValue?.eq_def]
  split
  · exact absurd rfl (digit_ne_of_not (digits 'x' (by simp)) (by decide))
  · exact absurd rfl (digit_ne_of_not (digits 'X' (by simp)) (by decide))
  · rw [if_pos (by simp)]
  next other =>
    have unmarked : ¬(1 < text.length ∧ text.head? = some '0') := by
      rintro ⟨long, zero⟩
      obtain ⟨rest, rfl⟩ := head?_eq_some_iff.mp zero
      cases rest with
      | nil => simp at long
      | cons second rest => exact other second rest rfl
    rw [if_neg unmarked]

/-- The value of an integer is the number its text denotes. -/
theorem numberValue_integer {text : String} (integer : IntegerText text.toList) (value : Value) :
    numberValue text = .ok value ↔
      ∃ number : Nat, literalValue? text.toList = some number ∧ value = .int number := by
  generalize shape : text.toList = characters at integer
  cases integer with
  | digits _ digits =>
    subst shape
    rw [numberValue_digits digits, literalValue?_digits digits]
    split
    · grind
    · split
      next long => simp [Nat.not_le.mpr long]
      next short =>
        obtain ⟨number, found⟩ := positional?_isSome fun c mem =>
          digitValue?_lt (digits c mem)
        rw [found, if_pos (by omega)]
        simp [eq_comm]
  | hexadecimal marked present hex =>
    rename_i mark digits
    obtain ⟨number, found⟩ := positional?_isSome fun c mem => hexValue?_lt (hex c mem)
    have denoted : literalValue? ('0' :: mark :: digits) = some number := by
      rcases marked with rfl | rfl
      · exact found
      · exact found
    have read : natInBase? 16 digits = some number := by
      rw [natInBase?_eq present, found]
    have valued : numberValue text = .ok (.int ((natInBase? 16 digits).getD 0)) := by
      rw [numberValue, shape]
      rcases marked with rfl | rfl
      · rfl
      · rfl
    rw [valued, read, denoted]
    simp [eq_comm]

/-! Every number of an expression. -/

theorem frontLexeme?_number {length : Nat}
    (found : frontLexeme? text = some (some (.number number), length)) :
    numberLength text ≠ 0 ∧ number.toList = text.take (numberLength text) := by
  rw [frontLexeme?.eq_def] at found
  dsimp only at found
  split at found
  next digits =>
    simp only [Option.some.injEq, Prod.mk.injEq, Lexeme.number.injEq] at found
    rw [← found.1, String.toList_ofList]
    exact ⟨by simpa using digits, rfl⟩
  grind

/-- A number without a point is an integer. -/
theorem integerText_of_mem {expr : String} {found : List Lexeme}
    (taken : lexemesFrom expr text = .ok found)
    (mem : .number number ∈ found) (noPoint : '.' ∉ number.toList) :
    IntegerText number.toList := by
  fun_induction lexemesFrom expr text generalizing found with
  | case1 => cases taken; cases mem
  | case2 => cases taken
  | case3 c rest lexeme length front ih =>
    cases further : lexemesFrom expr (rest.drop (length - 1)) with
    | error fault => rw [further] at taken; cases taken
    | ok others =>
      rw [further] at taken
      obtain rfl := Except.ok.inj taken
      rcases mem_append.mp mem with here | later
      · obtain rfl := Option.mem_toList.mp here
        obtain ⟨present, same⟩ := frontLexeme?_number front
        rw [same] at noPoint ⊢
        exact integerText_of_numberLength present noPoint
      · exact ih further later

end WebShader.Condition
