import WebShader.Definition.Preamble
import WebShader.Sharing.Usage

/-!
Contract: how each global of the preamble is shared between the stages.

Owns: constant expressions, the globals that stay constant, and the class of
every global.

Does not own: the change of the stages that a class asks for.

A global that a parameter or a block member claims is backed by a uniform. One
that is never written, with a constant initial value or none, is constant, and
constants may be used in the initial values of others. Of the rest, what the
vertex stage writes and the fragment stage uses has to be carried over.
-/

namespace WebShader.Sharing

open Text Reader

def booleanTypes : List String :=
  ["bool", "bvec2", "bvec3", "bvec4"]

def channelTypes : List String :=
  floatTypes ++ integerTypes ++ booleanTypes

/-! Constant expressions. -/

/-- Whether a token is constant in front of another one: a literal, the
constructor of a value type, or a known constant. -/
def isConstantToken (constants : List String) (token : Token) (next : Option Token) : Bool :=
  match token.kind with
  | .ident =>
    if next.any (·.isPunct "(") then valueTypes.contains token.text
    else constants.contains token.text || token.text == "true" || token.text == "false"
  | .string | .directive => false
  | .punct => !(assignmentOperators ++ Usage.stepOperators).contains token.text
  | _ => true

def allConstant (constants : List String) : List Token → Bool
  | [] => true
  | token :: rest => isConstantToken constants token rest.head? && allConstant constants rest

def isConstantExpression (constants : List String) (expression : String) : Bool :=
  allConstant constants ((Token.lex expression).filter (!·.isTrivia))

/-! Names and literals of enumerations. -/

def isUpper (c : Char) : Bool :=
  'A' ≤ c && c ≤ 'Z'

def isUpperOrDigit (c : Char) : Bool :=
  isUpper c || isAsciiDigit c

/-- Capitals and digits in at least three parts joined by underscores, a capital
first. A line end after the name does not count. -/
def isEnumName (name : String) : Bool :=
  let characters := name.toList
  let trimmed := if characters.getLast? == some '\n' then characters.dropLast else characters
  let parts := splitAtEach '_' trimmed
  trimmed.head?.any isUpper && 3 ≤ parts.length &&
    parts.all fun part => !part.isEmpty && part.all isUpperOrDigit

def hexLiteral : Reader Unit := do
  literal "0"
  let _ ← literalIn ["x", "X"]
  let _ ← someRun isHexDigit
  let _ ← Reader.optional (literalIn ["u", "U"])

def exponent : Reader Unit := do
  let _ ← literalIn ["e", "E"]
  let _ ← Reader.optional (literalIn ["-", "+"])
  let _ ← someRun isDigit

def decimalLiteral : Reader Unit := do
  (do
    let _ ← someRun isDigit
    let _ ← Reader.optional (literal ".")
    let _ ← Reader.run isDigit) <|> (do
    literal "."
    let _ ← someRun isDigit)
  let _ ← Reader.optional exponent
  let _ ← Reader.optional (literalIn ["u", "U", "f", "F"])

def signedLiteral : Reader Unit := do
  blanks
  let _ ← Reader.optional (literalIn ["-", "+"])
  hexLiteral <|> decimalLiteral <|> literal "true" <|> literal "false"
  blanks
  atEnd

/-- Whether a text is one literal, perhaps with a sign. -/
def isLiteral (text : String) : Bool :=
  (signedLiteral.read? text.toList).isSome

/-! Classes. -/

/-- Whether a global is constant, given the names written in a stage and the known constants.
A literal of an enumeration is so whoever writes it. -/
def isConstant (writtenNames constants : List String) (target : GlobalVariable) : Bool :=
  (isEnumName target.name && target.initializer.any isLiteral) ||
    (!writtenNames.contains target.name &&
      target.initializer.all (isConstantExpression constants))

def constantOnes (writtenNames constants : List String) (pending : List GlobalVariable) :
    List GlobalVariable :=
  pending.filter (isConstant writtenNames constants)

def otherOnes (writtenNames constants : List String) (pending : List GlobalVariable) :
    List GlobalVariable :=
  pending.filter fun target => !isConstant writtenNames constants target

theorem otherOnes_length {writtenNames constants : List String} {pending : List GlobalVariable}
    (nonempty : ¬(constantOnes writtenNames constants pending).isEmpty) :
    (otherOnes writtenNames constants pending).length < pending.length := by
  apply List.length_filter_lt_length_iff_exists.mpr
  cases shape : constantOnes writtenNames constants pending with
  | nil => simp [shape] at nonempty
  | cons first _ =>
    have membership : first ∈ constantOnes writtenNames constants pending := by simp [shape]
    have facts := List.mem_filter.mp membership
    exact ⟨first, facts.1, by simp [facts.2]⟩

/-- The constants of the pending globals. Each round adds those whose initial
values use constants known so far, until a round adds none. -/
def settleConstants (writtenNames constants : List String) (pending : List GlobalVariable) :
    List GlobalVariable :=
  let found := constantOnes writtenNames constants pending
  if found.isEmpty then []
  else
    found ++ settleConstants writtenNames (constants ++ found.map GlobalVariable.name)
      (otherOnes writtenNames constants pending)
termination_by pending.length
decreasing_by
  rename_i nonempty
  exact otherOnes_length nonempty

structure Facts where
  vertexWrites : List String
  fragmentWrites : List String
  fragmentUses : List String

def Facts.ofStages (parameterPrefix : String) (names : List String) (vertex fragment : String) :
    Except Fault Facts := do
  let vertexWrites ← Usage.written names parameterPrefix vertex
  let fragmentWrites ← Usage.written names parameterPrefix fragment
  return { vertexWrites, fragmentWrites, fragmentUses := Usage.referenced names fragment }

def isCarriable (target : GlobalVariable) : Bool :=
  target.arraySuffix.isEmpty && channelTypes.contains target.typeName

def sharingOfVariable (facts : Facts) (target : GlobalVariable) : Noted Sharing :=
  let inVertex := facts.vertexWrites.contains target.name
  let isUsed := facts.fragmentUses.contains target.name
  if inVertex && isUsed && !isCarriable target then do
    Noted.note (.notCarriable target.name target.typeName target.arraySuffix)
    return .stageLocal
  else if inVertex && facts.fragmentWrites.contains target.name then pure .bothStages
  else if inVertex && isUsed then pure .vertexChannel
  else pure .stageLocal

def sharingOf (facts : Facts) (constants : List GlobalVariable) (target : GlobalVariable) :
    Noted Sharing :=
  if target.claimed then pure .uniformBacked
  else if constants.contains target then pure .constant
  else sharingOfVariable facts target

def assignSharing (facts : Facts) (constants : List GlobalVariable) :
    List GlobalVariable → Noted (List GlobalVariable)
  | [] => pure []
  | target :: rest => do
      let sharing ← sharingOf facts constants target
      return { target with sharing } :: (← assignSharing facts constants rest)

def classify (parameterPrefix : String) (knownConstants : List String)
    (globals : List GlobalVariable) (vertex fragment : String) :
    ExceptT Fault Noted (List GlobalVariable) := do
  let facts ← (Facts.ofStages parameterPrefix (globals.map GlobalVariable.name) vertex fragment :
    Except Fault Facts)
  let constants := settleConstants (facts.vertexWrites ++ facts.fragmentWrites) knownConstants
    (globals.filter fun target => !target.claimed)
  assignSharing facts constants globals

end WebShader.Sharing
