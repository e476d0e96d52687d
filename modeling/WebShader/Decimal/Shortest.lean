import WebShader.Decimal.Reader

/-!
Contract: the shortest decimal text of a double.

Owns: the choice of digits, the fewest that read back to the same double and
among those the nearest to its value, and the layout of digits around point and
exponent.

Does not own: the reading back; that is `Decimal.Reader`.
-/

namespace WebShader.Decimal

/-- The digits `digits` times a power of ten. -/
structure Scaled where
  digits : Nat
  exponent : Int
  deriving DecidableEq, Repr

/-- Integer significand and binary exponent of a finite double, without its sign. -/
def binaryParts (value : Float) : Nat × Int :=
  let bits := value.toBits.toNat
  let biased : Nat := bits / Nat.pow 2 52 % Nat.pow 2 11
  let fraction : Nat := bits % Nat.pow 2 52
  if biased == 0 then (fraction, -1074) else (fraction + Nat.pow 2 52, (biased : Int) - 1075)

/-- A positive double as a quotient. -/
def quotientParts (value : Float) : Nat × Nat :=
  let parts := binaryParts value
  if parts.2 < 0 then (parts.1, Nat.pow 2 parts.2.natAbs)
  else (parts.1 * Nat.pow 2 parts.2.natAbs, 1)

/-- How many digits a positive quotient has before its point; negative when zeros
follow the point. -/
def pointPosition (numerator denominator : Nat) : Int :=
  (Nat.toDigits 10 (numerator * Nat.pow 10 400 / denominator)).length - 400

/-- The two neighbours of a quotient among the multiples of `10 ^ exponent`, the
nearer first. A tie goes to the even one. -/
def neighbours (numerator denominator : Nat) (exponent : Int) : List Scaled :=
  let power := Nat.pow 10 exponent.natAbs
  let scaledNumerator := if exponent < 0 then numerator * power else numerator
  let scaledDenominator := if exponent < 0 then denominator else denominator * power
  let below := scaledNumerator / scaledDenominator
  let twiceRest := 2 * (scaledNumerator % scaledDenominator)
  let belowFirst :=
    twiceRest < scaledDenominator || (twiceRest == scaledDenominator && below % 2 == 0)
  if belowFirst then [⟨below, exponent⟩, ⟨below + 1, exponent⟩]
  else [⟨below + 1, exponent⟩, ⟨below, exponent⟩]

def Scaled.readsBack (decimal : Scaled) (value : Float) : Bool :=
  (nearestDouble decimal.digits decimal.exponent).toBits == value.toBits

/-- The fewest digits that read back to a positive finite double. Seventeen always do. -/
def shortest (value : Float) : Scaled :=
  let quotient := quotientParts value
  let position := pointPosition quotient.1 quotient.2
  let grids := (List.range 17).map fun count => position - (count + 1 : Nat)
  let candidates := grids.flatMap (neighbours quotient.1 quotient.2)
  (candidates.find? (·.readsBack value)).getD ⟨0, 0⟩

/-- Where positional notation ends, and how an exponent is written. -/
structure Style where
  leastPositional : Int
  mostPositional : Int
  exponentDigits : Nat

/-- Decimal exponents from -4 to 15 are written out in full; an exponent has two digits or more. -/
def Style.plain : Style :=
  { leastPositional := -4, mostPositional := 15, exponentDigits := 2 }

private def zeros (count : Nat) : List Char :=
  List.replicate count '0'

def Style.exponentText (style : Style) (exponent : Int) : List Char :=
  let digits := Nat.toDigits 10 exponent.natAbs
  let padding := zeros (style.exponentDigits - digits.length)
  'e' :: (if exponent < 0 then '-' else '+') :: (padding ++ digits)

/-- Lays out digits whose point stands after `position` of them. -/
def Style.layout (style : Style) (digits : List Char) (position : Int) : List Char :=
  let exponent := position - 1
  if exponent < style.leastPositional || style.mostPositional < exponent then
    match digits with
    | [] => []
    | [digit] => digit :: style.exponentText exponent
    | digit :: others => digit :: '.' :: others ++ style.exponentText exponent
  else if position ≤ 0 then '0' :: '.' :: zeros position.natAbs ++ digits
  else
    let whole := position.toNat
    if digits.length ≤ whole then digits ++ zeros (whole - digits.length) ++ ['.', '0']
    else digits.take whole ++ '.' :: digits.drop whole

/-- The text of a double: shortest digits, and always a point or an exponent. -/
def render (value : Float) : String :=
  if value.isNaN then "nan"
  else
    let negative := value.toBits.toNat / Nat.pow 2 63 == 1
    let magnitude := if negative then -value else value
    let body :=
      if magnitude.isInf then "inf"
      else if magnitude == 0.0 then "0.0"
      else
        let decimal := shortest magnitude
        let digits := Nat.toDigits 10 decimal.digits
        let significant := Text.trimEndWhere (· == '0') digits
        String.ofList (Style.plain.layout significant (digits.length + decimal.exponent))
    if negative then "-" ++ body else body

end WebShader.Decimal
