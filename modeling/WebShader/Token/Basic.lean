/-!
Contract: the lexical units of shader source.

Owns: the kinds of token, a token with its text and place, and the words of the
language that later passes ask about.

Does not own: how source is cut into tokens; that is `Token.Lexer`.
-/

namespace WebShader

inductive TokenKind where
  | ident
  | number
  | punct
  | whitespace
  | newline
  | comment
  | string
  | directive
  deriving DecidableEq, Repr

namespace TokenKind

/-- The word a report calls the kind by. -/
def label : TokenKind → String
  | .ident => "ident"
  | .number => "number"
  | .punct => "punct"
  | .whitespace => "whitespace"
  | .newline => "newline"
  | .comment => "comment"
  | .string => "string"
  | .directive => "directive"

/-- Trivia: blanks, line ends and comments. -/
def isTrivia : TokenKind → Bool
  | .whitespace | .newline | .comment => true
  | _ => false

end TokenKind

/-- A token keeps its exact text, and its offset in characters. -/
structure Token where
  kind : TokenKind
  text : String
  start : Nat
  deriving DecidableEq, Repr

namespace Token

def stop (token : Token) : Nat :=
  token.start + token.text.length

def isTrivia (token : Token) : Bool :=
  token.kind.isTrivia

def isPunct (token : Token) (text : String) : Bool :=
  token.kind == .punct && token.text == text

def isPunctIn (token : Token) (texts : List String) : Bool :=
  token.kind == .punct && texts.contains token.text

def isIdent (token : Token) : Bool :=
  token.kind == .ident

def isWord (token : Token) (text : String) : Bool :=
  token.kind == .ident && token.text == text

def isWordIn (token : Token) (texts : List String) : Bool :=
  token.kind == .ident && texts.contains token.text

def render (tokens : List Token) : String :=
  String.join (tokens.map Token.text)

end Token

/-- Operators that take a value on both sides. -/
def binaryOperators : List String :=
  ["+", "-", "*", "/", "%", "<", ">", "<=", ">=", "==", "!=", "&&", "||", "^^",
   "&", "|", "^", "<<", ">>", "=", "+=", "-=", "*=", "/=", "%=", "&=", "|=",
   "^=", "<<=", ">>=", "?", ":"]

def assignmentOperators : List String :=
  ["=", "+=", "-=", "*=", "/=", "%=", "&=", "|=", "^=", "<<=", ">>="]

def integerTypes : List String :=
  ["int", "uint", "ivec2", "ivec3", "ivec4", "uvec2", "uvec3", "uvec4"]

def floatTypes : List String :=
  ["float", "vec2", "vec3", "vec4", "mat2", "mat3", "mat4",
   "mat2x2", "mat2x3", "mat2x4", "mat3x2", "mat3x3", "mat3x4",
   "mat4x2", "mat4x3", "mat4x4"]

def valueTypes : List String :=
  integerTypes ++ floatTypes ++ ["bool", "bvec2", "bvec3", "bvec4", "void"]

def precisionQualifiers : List String :=
  ["lowp", "mediump", "highp"]

end WebShader
