import WebShader.Coercion.Operand

/-!
Contract: which integer literals become floats.

Owns: the places where a literal stays an integer.

Does not own: casts of names; those are `Coercion.Cast`.

A literal stays in a subscript, in an integer constructor or a layout, as an
argument that must be an integer, in a declaration of integers, in what an
integer function returns, in a case label, and next to an integer operand.
-/

namespace WebShader.Coercion

/-- An open bracket and what it means for the literals in it. The flags of a call
are those of its current and later arguments. -/
inductive Frame where
  | integersOnly
  | integerArguments
  | call (flags : List Bool)
  | group
  deriving DecidableEq, Repr

namespace Frame

/-- A comma moves a call to its next argument. -/
def nextArgument : Frame → Frame
  | .call flags => .call flags.tail
  | frame => frame

def protectsAll : Frame → Bool
  | .integersOnly => true
  | _ => false

def protectsDirect : Frame → Bool
  | .integersOnly | .integerArguments => true
  | .call (isInteger :: _) => isInteger
  | _ => false

end Frame

/-- The name in front of the subscripts that end here, read backwards. -/
def ownerOfSubscript? (depth : Nat) : List Token → Option String
  | [] => none
  | token :: before =>
    if token.isPunct "]" then ownerOfSubscript? (depth + 1) before
    else if token.isPunct "[" then
      if depth ≤ 1 then (before.head?.filter (·.isIdent)).map Token.text
      else ownerOfSubscript? (depth - 1) before
    else ownerOfSubscript? depth before

def callee? (before : List Token) : Option String :=
  match before with
  | [] => none
  | token :: _ =>
    if token.isIdent then some token.text
    else if token.isPunct "]" then ownerOfSubscript? 0 before
    else none

def parenthesisFrame (typing : Typing) (before : List Token) : Frame :=
  match callee? before with
  | none => .group
  | some name =>
    if integerTypes.contains name then .integersOnly
    else if integerBuiltins.contains name then .integerArguments
    else if name == "layout" then .integersOnly
    else if name == "for" then .group
    else
      match typing.parameters.lookup name with
      | some flags => .call flags
      | none => .group

/-- The token in front of the parentheses that end here; only round brackets count. -/
def ownerOfParentheses? (depth : Nat) : List Token → Option Token
  | [] => none
  | token :: before =>
    if token.isPunct ")" then ownerOfParentheses? (depth + 1) before
    else if token.isPunct "(" then
      if depth ≤ 1 then before.head? else ownerOfParentheses? (depth - 1) before
    else ownerOfParentheses? depth before

/-- Whether a brace after this code opens the body of an integer function. -/
def opensIntegerFunction (typing : Typing) (before : List Token) : Bool :=
  before.head?.any (·.isPunct ")") &&
    (ownerOfParentheses? 0 before).any fun owner => typing.integerFunctions.contains owner.text

/-- The place of a literal among brackets and statements. -/
structure Place where
  frames : List Frame
  declarationDepth : Option Nat
  inIntegerReturn : Bool
  inCaseLabel : Bool
  braceDepth : Nat
  inIntegerFunction : Bool
  deriving DecidableEq, Repr

namespace Place

def start : Place :=
  ⟨[], none, false, false, 0, false⟩

/-- The place after a bracket closes; a declaration in it is over. -/
def closeBracket (place : Place) : Place :=
  let frames := place.frames.tail
  { place with
    frames
    declarationDepth := place.declarationDepth.filter fun depth => depth ≤ frames.length }

def endStatement (place : Place) : Place :=
  { place with
    declarationDepth := place.declarationDepth.filter fun depth => depth < place.frames.length
    inIntegerReturn := false }

def nextArgument (place : Place) : Place :=
  match place.frames with
  | frame :: others => { place with frames := frame.nextArgument :: others }
  | [] => place

def openBrace (typing : Typing) (before : List Token) (place : Place) : Place :=
  { place with
    inIntegerFunction :=
      if place.braceDepth == 0 then opensIntegerFunction typing before
      else place.inIntegerFunction
    braceDepth := place.braceDepth + 1
    declarationDepth := none }

def afterPunct (typing : Typing) (before : List Token) (text : String) (place : Place) : Place :=
  match text with
  | "(" => { place with frames := parenthesisFrame typing before :: place.frames }
  | "[" => { place with frames := .integersOnly :: place.frames }
  | ")" | "]" => place.closeBracket
  | "," => place.nextArgument
  | ";" => place.endStatement
  | ":" => { place with inCaseLabel := false }
  | "\x7b" => place.openBrace typing before
  | "\x7d" => { place with braceDepth := place.braceDepth - 1 }
  | _ => place

/-- Whether an integer type, given the code after it, starts a declaration of variables. -/
def startsDeclaration : List Token → Bool
  | name :: next :: _ => name.isIdent && !next.isPunct "("
  | _ => false

def afterIdent (text : String) (after : List Token) (place : Place) : Place :=
  if integerTypes.contains text && startsDeclaration after then
    { place with declarationDepth := some place.frames.length }
  else if text == "return" && place.inIntegerFunction then
    { place with inIntegerReturn := true }
  else if text == "case" then { place with inCaseLabel := true }
  else place

def advance (typing : Typing) (before : List Token) (token : Token) (after : List Token)
    (place : Place) : Place :=
  match token.kind with
  | .punct => place.afterPunct typing before token.text
  | .ident => place.afterIdent token.text after
  | _ => place

def protectsLiteral (place : Place) : Bool :=
  place.declarationDepth.isSome || place.inIntegerReturn || place.inCaseLabel ||
    place.frames.any Frame.protectsAll || place.frames.head?.any Frame.protectsDirect

end Place

/-- The code before a literal without the literal's own sign. A sign after an
operand is an operator and stays. -/
def withoutSign (before : List Token) : List Token :=
  match before with
  | sign :: others =>
    let isSign := sign.isPunctIn ["-", "+"] &&
      others.head?.all fun token => token.kind == .punct && !token.isPunctIn [")", "]"]
    if isSign then others else before
  | [] => []

def integerOnLeft (typing : Typing) (before : List Token) : Bool :=
  match withoutSign before with
  | operator :: others =>
    operator.isPunctIn bitwiseOperators ||
      (operator.isPunctIn typedOperators && endsInteger typing others)
  | [] => false

def integerOnRight (typing : Typing) (after : List Token) : Bool :=
  match after with
  | operator :: others =>
    operator.isPunctIn bitwiseOperators ||
      (operator.isPunctIn typedOperators && startsInteger typing others)
  | [] => false

def isWidened (typing : Typing) (before : List Token) (token : Token) (after : List Token)
    (place : Place) : Bool :=
  token.kind == .number && isBareInteger token.text && !place.protectsLiteral &&
    !integerOnLeft typing before && !integerOnRight typing after

def widenFrom (typing : Typing) (before : List Token) (place : Place) :
    List Token → List Operand
  | [] => []
  | token :: after =>
    ⟨token, isWidened typing before token after place⟩ ::
      widenFrom typing (token :: before) (place.advance typing before token after) after

def widen (typing : Typing) (code : List Token) : List Operand :=
  widenFrom typing [] .start code

end WebShader.Coercion
