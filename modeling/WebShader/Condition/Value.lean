import WebShader.Condition.Fault
import WebShader.Decimal.Shortest

/-!
Contract: the numbers of a condition and the operators on them.

Owns: unbounded integers and doubles, the exact comparison of one with the
other, and the meaning of every unary and binary operator.

Does not own: the order in which operators apply; that is `Condition.Parser`.

An operator that needs integers takes the whole part of a double. Division and
remainder of integers go toward zero.
-/

namespace WebShader.Condition

inductive Value where
  | int (value : Int)
  | float (value : Float)

namespace Value

def isTrue : Value → Bool
  | .int value => value != 0
  | .float value => value != 0.0

def ofBool (flag : Bool) : Value :=
  .int (if flag then 1 else 0)

/-- The whole part of a double, toward zero. -/
def wholePart (value : Float) : Except Fault Int :=
  if value.isNaN then .error .undefinedToInteger
  else if value.isInf then .error .infiniteToInteger
  else
    let parts := Decimal.quotientParts value
    let magnitude : Nat := parts.1 / parts.2
    .ok (if value < 0.0 then -(magnitude : Int) else magnitude)

def toInt : Value → Except Fault Int
  | .int value => .ok value
  | .float value => wholePart value

/-- The nearest double; an integer beyond the largest double has none. -/
def toFloat : Value → Except Fault Float
  | .int value =>
    let nearest := Decimal.nearestDouble value.natAbs 0
    if nearest.isInf then .error .integerBeyondFloat
    else .ok (if value < 0 then -nearest else nearest)
  | .float value => .ok value

/-- The exact order of an integer and a finite double. -/
def compareIntFinite (left : Int) (right : Float) : Ordering :=
  let parts := Decimal.quotientParts right
  let numerator : Int := if right < 0.0 then -(parts.1 : Int) else parts.1
  compare (left * (parts.2 : Int)) numerator

/-- The order of an integer and a double, none when the double is undefined. -/
def compareIntFloat (left : Int) (right : Float) : Option Ordering :=
  if right.isNaN then none
  else if right.isInf then some (if 0.0 < right then .lt else .gt)
  else some (compareIntFinite left right)

def compareFloats (left right : Float) : Option Ordering :=
  if left < right then some .lt
  else if left == right then some .eq
  else if right < left then some .gt
  else none

/-- The order of two numbers; an undefined double has none. -/
def order : Value → Value → Option Ordering
  | .int left, .int right => some (compare left right)
  | .int left, .float right => compareIntFloat left right
  | .float left, .int right => (compareIntFloat right left).map Ordering.swap
  | .float left, .float right => compareFloats left right

end Value

/-! Bits of integers, negative ones read as infinitely many leading ones. -/

def complement : Int → Int
  | .ofNat value => .negSucc value
  | .negSucc value => .ofNat value

/-- The bits of one number that another one lacks. -/
def bitsWithout (value removed : Nat) : Nat :=
  value ^^^ (value &&& removed)

def bitAnd : Int → Int → Int
  | .ofNat left, .ofNat right => .ofNat (left &&& right)
  | .ofNat left, .negSucc right => .ofNat (bitsWithout left right)
  | .negSucc left, .ofNat right => .ofNat (bitsWithout right left)
  | .negSucc left, .negSucc right => .negSucc (left ||| right)

def bitOr : Int → Int → Int
  | .ofNat left, .ofNat right => .ofNat (left ||| right)
  | .ofNat left, .negSucc right => .negSucc (bitsWithout right left)
  | .negSucc left, .ofNat right => .negSucc (bitsWithout left right)
  | .negSucc left, .negSucc right => .negSucc (left &&& right)

def bitXor : Int → Int → Int
  | .ofNat left, .ofNat right => .ofNat (left ^^^ right)
  | .ofNat left, .negSucc right => .negSucc (left ^^^ right)
  | .negSucc left, .ofNat right => .negSucc (left ^^^ right)
  | .negSucc left, .negSucc right => .ofNat (left ^^^ right)

def maxShift : Nat := Nat.pow 2 34

def shiftLeft (value count : Int) : Except Fault Int :=
  if count < 0 then .error .negativeShift
  else if value == 0 then .ok 0
  else if maxShift ≤ count.toNat then .error .shiftTooLarge
  else .ok (value * (Nat.pow 2 count.toNat : Nat))

/-- Shifting by more places than a number has leaves only its sign. -/
def shiftRight (value count : Int) : Except Fault Int :=
  if count < 0 then .error .negativeShift
  else .ok (Int.fdiv value (Nat.pow 2 (min count.toNat (value.natAbs.log2 + 1)) : Nat))

inductive UnaryOp where
  | logicalNot
  | complement
  | negate
  | keep
  deriving DecidableEq, Repr

inductive BinaryOp where
  | logicalOr | logicalAnd
  | bitOr | bitXor | bitAnd
  | equal | notEqual
  | less | greater | lessEqual | greaterEqual
  | shiftLeft | shiftRight
  | add | subtract
  | multiply | divide | modulo
  deriving DecidableEq, Repr

namespace UnaryOp

def apply (op : UnaryOp) (value : Value) : Except Fault Value :=
  match op with
  | .logicalNot => .ok (.ofBool !value.isTrue)
  | .complement => value.toInt.map fun whole => .int (Condition.complement whole)
  | .negate =>
    match value with
    | .int whole => .ok (.int (-whole))
    | .float fraction => .ok (.float (-fraction))
  | .keep => .ok value

end UnaryOp

namespace BinaryOp

def onIntegers (operation : Int → Int → Except Fault Int) (left right : Value) :
    Except Fault Value := do
  let leftWhole ← left.toInt
  let rightWhole ← right.toInt
  return .int (← operation leftWhole rightWhole)

/-- Integers stay integers; with a double on either side both become doubles. -/
def arithmetic (onInts : Int → Int → Int) (onFloats : Float → Float → Float)
    (left right : Value) : Except Fault Value :=
  match left, right with
  | .int leftWhole, .int rightWhole => .ok (.int (onInts leftWhole rightWhole))
  | _, _ => do
      let leftFloat ← left.toFloat
      let rightFloat ← right.toFloat
      return .float (onFloats leftFloat rightFloat)

def comparison (holds : Option Ordering → Bool) (left right : Value) : Except Fault Value :=
  .ok (.ofBool (holds (left.order right)))

def isZero (value : Value) : Bool :=
  !value.isTrue

def apply (op : BinaryOp) (left right : Value) : Except Fault Value :=
  match op with
  | .logicalOr => .ok (.ofBool (left.isTrue || right.isTrue))
  | .logicalAnd => .ok (.ofBool (left.isTrue && right.isTrue))
  | .bitOr => onIntegers (fun a b => .ok (Condition.bitOr a b)) left right
  | .bitXor => onIntegers (fun a b => .ok (Condition.bitXor a b)) left right
  | .bitAnd => onIntegers (fun a b => .ok (Condition.bitAnd a b)) left right
  | .equal => comparison (· == some .eq) left right
  | .notEqual => comparison (· != some .eq) left right
  | .less => comparison (· == some .lt) left right
  | .greater => comparison (· == some .gt) left right
  | .lessEqual => comparison (fun found => found == some .lt || found == some .eq) left right
  | .greaterEqual => comparison (fun found => found == some .gt || found == some .eq) left right
  | .shiftLeft => onIntegers Condition.shiftLeft left right
  | .shiftRight => onIntegers Condition.shiftRight left right
  | .add => arithmetic (· + ·) (· + ·) left right
  | .subtract => arithmetic (· - ·) (· - ·) left right
  | .multiply => arithmetic (· * ·) (· * ·) left right
  | .divide =>
    if isZero right then .error .divisionByZero
    else arithmetic Int.tdiv (· / ·) left right
  | .modulo =>
    if isZero right then .error .divisionByZero
    else
      match left, right with
      | .int leftWhole, .int rightWhole => .ok (.int (Int.tmod leftWhole rightWhole))
      | _, _ => .error .fractionalModulo

end BinaryOp

end WebShader.Condition
