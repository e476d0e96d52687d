import WebShader.Text.Quoted

/-!
Contract: why a condition has no value.

Owns: the causes, in four groups, and the wording of each.

Does not own: what a caller does with a condition that has no value.
-/

namespace WebShader.Condition

/-- The deepest nesting of parentheses, unary operators and alternatives. -/
def maxNesting : Nat := 48

/-- How much of a malformed number's quotation a message shows. -/
def maxQuotation : Nat := 200

inductive Fault where
  | unexpectedCharacter (character : Char) (expression : String)
  | empty
  | missing (wanted : String) (found : Option String)
  | unexpected (found : Option String)
  | tooDeep
  | functionLike (name : String)
  | divisionByZero
  | fractionalModulo
  | badOctal (text : String)
  | tooManyDigits (count : Nat)
  | negativeShift
  | undefinedToInteger
  | infiniteToInteger
  | integerBeyondFloat
  | shiftTooLarge
  deriving DecidableEq, Repr

namespace Fault

private def named (found : Option String) : String :=
  found.getD "end of expression"

def message : Fault → String
  | .unexpectedCharacter character expression =>
    "Unexpected character " ++ Text.quote (String.ofList [character]) ++ " in '" ++
      expression ++ "'"
  | .empty => "Empty condition"
  | .missing wanted found => "Expected '" ++ wanted ++ "', got '" ++ named found ++ "'"
  | .unexpected found => "Unexpected '" ++ named found ++ "'"
  | .tooDeep => s!"Expression nested deeper than {maxNesting} levels"
  | .functionLike name => "Function-like macro '" ++ name ++ "' in condition"
  | .divisionByZero => "Division by zero"
  | .fractionalModulo => "Modulo of non-integer operands"
  | .badOctal text =>
    "invalid literal for int() with base 8: " ++ Text.quoteWithin maxQuotation text
  | .tooManyDigits count =>
    "Exceeds the limit (4300 digits) for integer string conversion: " ++
      s!"value has {count} digits; " ++
      "use sys.set_int_max_str_digits() to increase the limit"
  | .negativeShift => "negative shift count"
  | .undefinedToInteger => "cannot convert float NaN to integer"
  | .infiniteToInteger => "cannot convert float infinity to integer"
  | .integerBeyondFloat => "int too large to convert to float"
  | .shiftTooLarge => "too many digits in integer"

end Fault

end WebShader.Condition
