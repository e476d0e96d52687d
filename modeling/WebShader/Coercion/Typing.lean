import WebShader.Assoc
import WebShader.Token.Query

/-!
Contract: which names of a source are of integer and which of float type.

Owns: the declarations that a source makes, as far as numbers are concerned.

Does not own: scopes; a name has one type in the whole source, and integer wins.

Everything is read off the code tokens alone.
-/

namespace WebShader.Coercion

/-- Words that no declaration has for a name. -/
def statementKeywords : List String :=
  ["return", "else", "case", "do", "if", "for", "while", "switch"]

def parameterQualifiers : List String :=
  ["in", "out", "inout", "const"] ++ precisionQualifiers

def integerVariables : List String :=
  ["gl_VertexID", "gl_InstanceID"]

/-- The kind of number a type is made of. -/
inductive NumberKind where
  | integer
  | float
  deriving DecidableEq, Repr

/-- The kind of number that a type's name stands for. -/
def NumberKind.ofType? (typeName : String) : Option NumberKind :=
  if integerTypes.contains typeName then some .integer
  else if floatTypes.contains typeName then some .float
  else none

inductive Declared where
  | variables (kind : NumberKind) (names : List String) (isUniform : Bool)
  | function (kind : NumberKind) (name : String) (integerParameters : List Bool)
  deriving DecidableEq, Repr

def isIntegerParameter (tokens : List Token) : Bool :=
  match tokens.find? fun token => token.isIdent && !parameterQualifiers.contains token.text with
  | some typeToken => integerTypes.contains typeToken.text
  | none => false

/-- The flag of the last parameter, which may be missing. -/
def lastParameter (current : List Token) : List Bool :=
  if current.isEmpty then [] else [isIntegerParameter current]

/-- Which parameters are integers, from inside the parentheses on. -/
def integerParameters (depth : Nat) (current : List Token) : List Token → List Bool
  | [] => lastParameter current
  | token :: rest =>
    if token.isPunctIn ["(", "["] then
      integerParameters (depth + 1) (current ++ [token]) rest
    else if token.isPunctIn [")", "]"] then
      if depth ≤ 1 then lastParameter current
      else integerParameters (depth - 1) (current ++ [token]) rest
    else if depth == 1 && token.isPunct "," then
      isIntegerParameter current :: integerParameters depth [] rest
    else integerParameters depth (current ++ [token]) rest

/-- The names after commas in a declaration of several variables. -/
def moreDeclarators (depth : Nat) : List Token → List String
  | [] => []
  | token :: rest =>
    if token.isPunctIn ["(", "[", "\x7b"] then moreDeclarators (depth + 1) rest
    else if token.isPunctIn [")", "]", "\x7d"] then
      if depth == 0 then [] else moreDeclarators (depth - 1) rest
    else if depth == 0 && token.isPunct ";" then []
    else if depth == 0 && token.isPunct "," then
      match rest with
      | name :: _ =>
        if name.isIdent then name.text :: moreDeclarators depth rest
        else moreDeclarators depth rest
      | [] => []
    else moreDeclarators depth rest

/-- Whether code, read backwards, ends in `uniform` and precision words. -/
def followsUniform (before : List Token) : Bool :=
  (before.dropWhile fun token => precisionQualifiers.contains token.text).head?.any
    fun token => token.text == "uniform"

/-- The declaration that starts with a token, given the code on both sides of it. -/
def declaredAt? (before : List Token) (token : Token) (after : List Token) : Option Declared :=
  if !token.isIdent then none
  else
    match NumberKind.ofType? token.text, after with
    | some kind, name :: rest =>
      if !name.isIdent || statementKeywords.contains name.text then none
      else if rest.head?.any (·.isPunct "(") then
        some (.function kind name.text (integerParameters 1 [] (rest.drop 1)))
      else
        some (.variables kind (name.text :: moreDeclarators 0 rest) (followsUniform before))
    | _, _ => none

def declaredFrom (before : List Token) : List Token → List Declared
  | [] => []
  | token :: rest =>
    let others := declaredFrom (token :: before) rest
    match declaredAt? before token rest with
    | some declared => declared :: others
    | none => others

structure Typing where
  integers : List String
  floats : List String
  integerUniforms : List String
  integerFunctions : List String
  parameters : List (String × List Bool)
  deriving DecidableEq, Repr

namespace Typing

def add (typing : Typing) : Declared → Typing
  | .variables .integer names isUniform =>
    { typing with
      integers := typing.integers ++ names
      integerUniforms :=
        if isUniform then typing.integerUniforms ++ names else typing.integerUniforms }
  | .variables .float names _ => { typing with floats := typing.floats ++ names }
  | .function kind name flags =>
    { typing with
      integerFunctions :=
        if kind == .integer then typing.integerFunctions ++ [name] else typing.integerFunctions
      parameters := Assoc.put name flags typing.parameters }

/-- Takes the integers out of the floats. -/
def preferIntegers (typing : Typing) : Typing :=
  { typing with floats := typing.floats.filter fun name => !typing.integers.contains name }

/-- The types that code declares; of two functions with one name the last counts. -/
def ofCode (code : List Token) : Typing :=
  ((declaredFrom [] code).foldl add ⟨integerVariables, [], [], [], []⟩).preferIntegers

def ofSource (source : String) : Typing :=
  ofCode ((Token.code (Token.lex source)).map Token.Placed.token)

/-- Adds the types of another source; a function known already keeps its parameters. -/
def merge (typing other : Typing) : Typing :=
  preferIntegers
    { integers := typing.integers ++ other.integers
      floats := typing.floats ++ other.floats
      integerUniforms := typing.integerUniforms ++ other.integerUniforms
      integerFunctions := typing.integerFunctions ++ other.integerFunctions
      parameters := typing.parameters ++
        other.parameters.filter fun entry => (typing.parameters.lookup entry.1).isNone }

end Typing

end WebShader.Coercion
