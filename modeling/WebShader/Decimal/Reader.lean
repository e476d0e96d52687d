import WebShader.Text.Basic

/-!
Contract: reading integers and binary fractions from decimal text.

Owns: the accepted spellings, which allow digits of every script, blanks around
the number and single underscores between digits, and the rounding of a decimal
to the nearest double.

Does not own: where a number stands in a source; callers hand over its text.
-/

namespace WebShader.Decimal

open Text

/-- Blanks that may surround a number: every blank but U+001C to U+001F. -/
def isNumberBlank (c : Char) : Bool :=
  isBlank c && !(28 ≤ c.toNat && c.toNat ≤ 31)

/-- The ASCII digit of the same value; any other character stays. -/
def toAsciiDigit (c : Char) : Char :=
  match digitValue? c with
  | some value => Char.ofNat (48 + value)
  | none => c

/-- The number's own characters: blanks removed around it, digits in ASCII. -/
def numberCharacters (text : List Char) : List Char :=
  (trimWhere isNumberBlank text).map toAsciiDigit

/-- Removes underscores, each of which must stand between two digits. -/
def withoutUnderscores? (isDigitHere : Char → Bool) (afterDigit : Bool) :
    List Char → Option (List Char)
  | [] => some []
  | '_' :: next :: rest =>
    if afterDigit && isDigitHere next then
      (withoutUnderscores? isDigitHere true rest).map (next :: ·)
    else none
  | c :: rest =>
    if c == '_' then none
    else (withoutUnderscores? isDigitHere (isDigitHere c) rest).map (c :: ·)

def valueInBase (base : Nat) (digits : List Nat) : Nat :=
  digits.foldl (fun value digit => value * base + digit) 0

/-- The value of one digit in bases up to sixteen. -/
def digitInBase? (base : Nat) (c : Char) : Option Nat :=
  (hexValue? c).bind fun value => if value < base then some value else none

/-- Reads a nonempty run of digits; every character must be one. -/
def natInBase? (base : Nat) (text : List Char) : Option Nat :=
  if text.isEmpty then none
  else (text.mapM (digitInBase? base)).map (valueInBase base)

def splitSign : List Char → Bool × List Char
  | '-' :: rest => (true, rest)
  | '+' :: rest => (false, rest)
  | text => (false, text)

def applySign (negative : Bool) (value : Nat) : Int :=
  if negative then -(value : Int) else value

def maxIntegerDigits : Nat := 4300

def readInt? (text : String) : Option Int :=
  let signed := splitSign (numberCharacters text.toList)
  (withoutUnderscores? isAsciiDigit false signed.2).bind fun digits =>
    if maxIntegerDigits < digits.length then none
    else (natInBase? 10 digits).map (applySign signed.1)

/-- Base and digits of an integer that may carry a base mark. Without a mark the
base is ten, and only zero itself may start with a zero. -/
def readMarkedNat? (characters : List Char) : Option Nat :=
  let marked (base : Nat) (rest : List Char) : Option Nat :=
    let digits := match rest with
      | '_' :: others => others
      | others => others
    (withoutUnderscores? (fun c => (digitInBase? base c).isSome) false digits).bind
      (natInBase? base)
  match characters with
  | '0' :: 'x' :: rest => marked 16 rest
  | '0' :: 'X' :: rest => marked 16 rest
  | '0' :: 'o' :: rest => marked 8 rest
  | '0' :: 'O' :: rest => marked 8 rest
  | '0' :: 'b' :: rest => marked 2 rest
  | '0' :: 'B' :: rest => marked 2 rest
  | _ =>
    (withoutUnderscores? isAsciiDigit false characters).bind fun digits =>
      if maxIntegerDigits < digits.length then none
      else if digits.head? == some '0' && digits.any (· != '0') then none
      else natInBase? 10 digits

/-- Reads an integer whose base may be marked by `0x`, `0o` or `0b`. -/
def readMarkedInt? (text : String) : Option Int :=
  let signed := splitSign (numberCharacters text.toList)
  (readMarkedNat? signed.2).map (applySign signed.1)

/-- The nearest double to `mantissa * 10 ^ exponent`. Decimals far outside the
range of doubles are settled by their size alone. -/
def nearestDouble (mantissa : Nat) (exponent : Int) : Float :=
  if mantissa == 0 then 0.0
  else
    let magnitude : Int := (Nat.toDigits 10 mantissa).length + exponent
    if magnitude < -400 then 0.0
    else if 400 < magnitude then 1.0 / 0.0
    else Float.ofScientific mantissa (exponent < 0) exponent.natAbs

private def lowerAscii (c : Char) : Char :=
  if 65 ≤ c.toNat && c.toNat ≤ 90 then Char.ofNat (c.toNat + 32) else c

/-- An exponent: nothing, or a mark, an optional sign and at least one digit. -/
def readExponent? : List Char → Option Int
  | [] => some 0
  | mark :: rest =>
    if mark == 'e' || mark == 'E' then
      let signed := splitSign rest
      (natInBase? 10 signed.2).map (applySign signed.1)
    else none

/-- Digits, an optional point with digits, and an optional exponent. -/
def readUnsignedFloat? (text : List Char) : Option Float :=
  let whole := text.takeWhile isAsciiDigit
  let afterWhole := text.dropWhile isAsciiDigit
  let pointed := match afterWhole with
    | '.' :: rest => (rest.takeWhile isAsciiDigit, rest.dropWhile isAsciiDigit)
    | rest => ([], rest)
  (natInBase? 10 (whole ++ pointed.1)).bind fun mantissa =>
    (readExponent? pointed.2).map fun exponent =>
      nearestDouble mantissa (exponent - pointed.1.length)

/-- Reads a double: a decimal, or a name of infinity or of the undefined value. -/
def readFloat? (text : String) : Option Float :=
  let signed := splitSign (numberCharacters text.toList)
  let word := String.ofList (signed.2.map lowerAscii)
  let magnitude :=
    if word == "inf" || word == "infinity" then some (1.0 / 0.0)
    else if word == "nan" then some (0.0 / 0.0)
    else (withoutUnderscores? isAsciiDigit false signed.2).bind readUnsignedFloat?
  magnitude.map fun value => if signed.1 then -value else value

end WebShader.Decimal
