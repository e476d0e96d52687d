import WebShader.Coercion.Typing
import WebShader.Text.Reader

/-!
Contract: the kind of number of an operand next to an operator.

Owns: the operators, number literals, and the decision for operands that end or
start at a place.

Does not own: what follows from it for a literal or a name.

Code before a place is given backwards, nearest token first.
-/

namespace WebShader.Coercion

open Text

def bitwiseOperators : List String :=
  ["&", "|", "^", "<<", ">>", "%", "~", "&=", "|=", "^=", "<<=", ">>=", "%="]

def comparisonOperators : List String :=
  ["<", "<=", ">", ">=", "==", "!="]

def typedOperators : List String :=
  (binaryOperators.filter fun operator => !(["&&", "||", "^^", "?", ":"].contains operator)) ++
    assignmentOperators

/-- Typed operators that store nothing. -/
def valueOperators : List String :=
  typedOperators.filter fun operator => !assignmentOperators.contains operator

def integerBuiltins : List String :=
  ["texelFetch", "texelFetchOffset", "textureSize"]

def integerResults : List String :=
  ["textureSize", "floatBitsToInt", "floatBitsToUint"]

/-- A decimal integer without sign, suffix or leading zero. -/
def isBareInteger (text : String) : Bool :=
  match text.toList with
  | ['0'] => true
  | first :: rest => '1' ≤ first && first ≤ '9' && rest.all isDigit
  | [] => false

def floatStart : Reader Unit := do
  (do
    let _ ← Reader.someRun isDigit
    let _ ← Reader.literalIn [".", "e", "E"]) <|> (do
    Reader.literal "."
    let _ ← Reader.someRun isDigit)

/-- A number with a point or an exponent. -/
def isFloatLiteral (text : String) : Bool :=
  (floatStart.read? text.toList).isSome

/-- A token of the code, and whether it is a literal that becomes a float. -/
structure Operand where
  token : Token
  isWidened : Bool
  deriving DecidableEq, Repr

/-- The code in front of the bracket that the bracket at the front closes. Round
and square brackets count alike. -/
def beforeOpening? (depth : Nat) : List Token → Option (List Token)
  | [] => none
  | token :: rest =>
    if token.isPunctIn [")", "]"] then beforeOpening? (depth + 1) rest
    else if token.isPunctIn ["(", "["] then
      if depth ≤ 1 then some rest else beforeOpening? (depth - 1) rest
    else beforeOpening? depth rest

def ownerOfBrackets? (before : List Token) : Option Token :=
  (beforeOpening? 0 before).bind List.head?

def Typing.isIntegerCall (typing : Typing) (name : String) : Bool :=
  integerTypes.contains name || typing.integerFunctions.contains name ||
    integerResults.contains name

/-- Whether the operand that ends here is an integer; a component of an integer
vector is one too. -/
def endsInteger (typing : Typing) : List Token → Bool
  | [] => false
  | token :: before =>
    if token.isIdent then
      match before with
      | dot :: others =>
        if dot.isPunct "." then
          others.head?.any fun vector => typing.integers.contains vector.text
        else typing.integers.contains token.text
      | [] => typing.integers.contains token.text
    else if token.isPunct "]" then
      (ownerOfBrackets? (token :: before)).any fun owner => typing.integers.contains owner.text
    else if token.isPunct ")" then
      (ownerOfBrackets? (token :: before)).any fun owner => typing.isIntegerCall owner.text
    else false

/-- Whether the operand that starts here, perhaps with signs, is an integer. -/
def startsInteger (typing : Typing) : List Token → Bool
  | [] => false
  | token :: after =>
    if token.isPunctIn ["-", "+"] then startsInteger typing after
    else if !token.isIdent then false
    else if after.head?.any (·.isPunct "(") then typing.isIntegerCall token.text
    else typing.integers.contains token.text

/-- Whether a literal is a float, or becomes one. -/
def Operand.isFloatNumber (operand : Operand) : Bool :=
  isFloatLiteral operand.token.text || operand.isWidened

def endsFloat (typing : Typing) : List Operand → Bool
  | [] => false
  | operand :: before =>
    let token := operand.token
    if token.kind == .number then operand.isFloatNumber
    else if token.isIdent then
      match before with
      | dot :: others =>
        if dot.token.isPunct "." then
          others.head?.any fun vector => typing.floats.contains vector.token.text
        else typing.floats.contains token.text
      | [] => typing.floats.contains token.text
    else if token.isPunct ")" then
      (ownerOfBrackets? (token :: before.map Operand.token)).any
        fun owner => floatTypes.contains owner.text
    else false

def startsFloat (typing : Typing) : List Operand → Bool
  | [] => false
  | operand :: after =>
    let token := operand.token
    if token.isPunctIn ["-", "+"] then startsFloat typing after
    else if token.kind == .number then operand.isFloatNumber
    else if !token.isIdent then false
    else if after.head?.any (·.token.isPunct "(") then floatTypes.contains token.text
    else typing.floats.contains token.text

end WebShader.Coercion
