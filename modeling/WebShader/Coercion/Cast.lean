import WebShader.Coercion.Literal

/-!
Contract: which names are cast.

Owns: integer uniforms next to floats, and float limits of integer counters in
the head of a loop.

Does not own: literals; they are marked before.
-/

namespace WebShader.Coercion

def isMixedWithFloat (typing : Typing) (before after : List Operand) : Bool :=
  let onLeft := match before with
    | operator :: others =>
      operator.token.isPunctIn valueOperators && endsFloat typing others
    | [] => false
  let onRight := match after with
    | operator :: others =>
      operator.token.isPunctIn valueOperators && startsFloat typing others
    | [] => false
  onLeft || onRight

def limitsCounter (typing : Typing) (before after : List Operand) : Bool :=
  let isLast := after.head?.all (·.token.isPunctIn [";", ")", "&&", "||"])
  let isCompared := match before with
    | operator :: counter :: _ =>
      comparisonOperators.contains operator.token.text &&
        typing.integers.contains counter.token.text
    | _ => false
  isLast && isCompared

/-- Whether a name is used as it is: not declared, selected, called or subscripted. -/
def isPlainUse (previous next : Option Operand) : Bool :=
  let isBound := previous.any fun operand =>
    operand.token.isPunct "." ||
      (operand.token.isIdent && !statementKeywords.contains operand.token.text)
  !isBound && !next.any (·.token.isPunctIn ["(", "["])

/-- The depth of parentheses, and the depths at which heads of loops are open. -/
structure LoopPlace where
  depth : Int
  heads : List Int
  deriving DecidableEq, Repr

namespace LoopPlace

def start : LoopPlace :=
  ⟨0, []⟩

def isInHead (place : LoopPlace) : Bool :=
  place.heads.head? == some place.depth

def advance (previous : Option Operand) (token : Token) (place : LoopPlace) : LoopPlace :=
  if token.isPunct "(" then
    let depth := place.depth + 1
    ⟨depth, if previous.any (·.token.isWord "for") then depth :: place.heads else place.heads⟩
  else if token.isPunct ")" then
    ⟨place.depth - 1, if place.isInHead then place.heads.tail else place.heads⟩
  else place

end LoopPlace

def coercedText (typing : Typing) (before : List Operand) (operand : Operand)
    (after : List Operand) (place : LoopPlace) : String :=
  let text := operand.token.text
  if operand.isWidened then text ++ ".0"
  else if !operand.token.isIdent || !isPlainUse before.head? after.head? then text
  else if typing.integerUniforms.contains text && isMixedWithFloat typing before after then
    "float(" ++ text ++ ")"
  else if typing.floats.contains text && place.isInHead && limitsCounter typing before after then
    "int(" ++ text ++ ")"
  else text

def castFrom (typing : Typing) (before : List Operand) (place : LoopPlace) :
    List Operand → List String
  | [] => []
  | operand :: after =>
    coercedText typing before operand after place ::
      castFrom typing (operand :: before) (place.advance before.head? operand.token) after

def coercedTexts (typing : Typing) (code : List Token) : List String :=
  castFrom typing [] .start (widen typing code)

end WebShader.Coercion
