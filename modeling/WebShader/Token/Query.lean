import WebShader.Token.Lexer

/-!
Contract: what later passes ask of a token list.

Owns: significant and code positions, directive names, the bracket that closes
a bracket, line ends, and the identifiers that code refers to.

Does not own: changing tokens.

A position is an index into the token list.
-/

namespace WebShader.Token

structure Placed where
  position : Nat
  token : Token
  deriving DecidableEq, Repr

def significant (tokens : List Token) : List Placed :=
  (tokens.zipIdx.filter fun entry => !entry.1.isTrivia).map fun entry => ⟨entry.2, entry.1⟩

def significantPositions (tokens : List Token) : List Nat :=
  (significant tokens).map Placed.position

/-- Whether the walk stands on a directive line after a token. -/
def onDirective (before : Bool) (token : Token) : Bool :=
  match token.kind with
  | .newline => false
  | .directive => true
  | _ => before

/-- The significant tokens outside directive lines, from a position on. -/
def codeFrom (onLine : Bool) : Nat → List Token → List Placed
  | _, [] => []
  | index, token :: rest =>
    let after := onDirective onLine token
    let others := codeFrom after (index + 1) rest
    if after || token.isTrivia then others else ⟨index, token⟩ :: others

/-- The significant tokens outside directive lines, in order. A directive runs
from its head to the end of the line; a continued line is one line. -/
def code (tokens : List Token) : List Placed :=
  codeFrom false 0 tokens

def codePositions (tokens : List Token) : List Nat :=
  (code tokens).map Placed.position

/-- The name after the hash, as in `define` for `#  define`. -/
def directiveName (token : Token) : String :=
  Text.trim (String.ofList (token.text.toList.drop 1))

def closingBracket? : String → Option String
  | "(" => some ")"
  | "[" => some "]"
  | "\x7b" => some "\x7d"
  | _ => none

/-- Steps from the front to the token where the depth of one kind of bracket
returns to zero. Brackets of other kinds do not count. -/
def closingDistance? (opener closer : String) : Nat → List Token → Option Nat
  | _, [] => none
  | depth, token :: rest =>
    if token.isPunct opener then (closingDistance? opener closer (depth + 1) rest).map (· + 1)
    else if token.isPunct closer then
      if depth ≤ 1 then some 0
      else (closingDistance? opener closer (depth - 1) rest).map (· + 1)
    else (closingDistance? opener closer depth rest).map (· + 1)

def matching? (tokens : List Token) (position : Nat) : Option Nat :=
  match tokens.drop position with
  | [] => none
  | token :: rest =>
    (closingBracket? token.text).bind fun closer =>
      (closingDistance? token.text closer 0 (token :: rest)).map (position + ·)

/-- Position of the newline that ends the line of a position, or the number of tokens. -/
def lineEnd (tokens : List Token) (position : Nat) : Nat :=
  position + ((tokens.drop position).takeWhile fun token => token.kind != .newline).length

/-- The last token before a place that is not trivia. -/
def significantAfter (previous : Option Token) (token : Token) : Option Token :=
  if token.isTrivia then previous else some token

/-- Whether a token selects a member, so that the name after it is no reference. -/
def selectsMember (previous : Option Token) : Bool :=
  previous.any (·.isPunct ".")

def referencesFrom (previous : Option Token) (inPragma : Bool) : List Token → List String
  | [] => []
  | token :: rest =>
    let pragmaAfter := match token.kind with
      | .newline => false
      | .directive => directiveName token == "pragma"
      | _ => inPragma
    let others := referencesFrom (significantAfter previous token) pragmaAfter rest
    if token.isIdent && !inPragma && !selectsMember previous then token.text :: others
    else others

/-- Identifiers that code refers to, in order and with repetition. Comments,
strings, member names and pragma lines hold none. -/
def references (source : String) : List String :=
  referencesFrom none false (lex source)

end WebShader.Token
