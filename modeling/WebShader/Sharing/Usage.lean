import WebShader.Fault
import WebShader.Token.Query

/-!
Contract: which names a stage writes and which it refers to.

Owns: the recognition of assignments to a name, and of uses other than its
declaration.

Does not own: what follows from it for the two stages.

Assignments are read from code only; references count on directive lines too.
-/

namespace WebShader.Usage

open Token (Placed)

def statementWords : List String :=
  ["return", "else", "case", "do"]

/-- Whether a token makes the name after it a declared one: any word but those of a statement. -/
def declares (previous : Option Token) : Bool :=
  previous.any fun token => token.isIdent && !statementWords.contains token.text

def stepOperators : List String :=
  ["++", "--"]

/-- The code after a position, which must be one of code. -/
def afterPosition (position : Nat) : List Placed → Except Fault (List Placed)
  | [] => .error .subscriptCloserInDirective
  | entry :: rest => if entry.position == position then .ok rest else afterPosition position rest

theorem afterPosition_length {position : Nat} {code rest : List Placed}
    (found : afterPosition position code = .ok rest) : rest.length < code.length := by
  induction code with
  | nil => cases found
  | cons entry others ih =>
    simp only [afterPosition] at found
    split at found
    · cases found
      simp
    · have := ih found
      simp only [List.length_cons]
      omega

def skipAccessors (tokens : List Token) : List Placed → Except Fault (List Placed)
  | [] => .ok []
  | entry :: rest =>
    if entry.token.isPunct "[" then
      match Token.matching? tokens entry.position with
      | none => .ok (entry :: rest)
      | some closer =>
        match _found : afterPosition closer rest with
        | .error fault => .error fault
        | .ok after => skipAccessors tokens after
    else if entry.token.isPunct "." then
      match rest with
      | member :: after =>
        if member.token.isIdent then skipAccessors tokens after else .ok (entry :: rest)
      | [] => .ok [entry]
    else .ok (entry :: rest)
termination_by code => code.length
decreasing_by
  · have := afterPosition_length _found
    simp only [List.length_cons]
    omega
  · simp only [List.length_cons]
    omega

/-- Whether code goes on as a copy of a name from its parameter: `= PARAM_X;` for `X`. -/
def copiesParameter (parameterName : String) : List Placed → Bool
  | equals :: source :: stop :: _ =>
    equals.token.isPunct "=" && source.token.text == parameterName && stop.token.isPunct ";"
  | _ => false

/-- Whether the code after a name and its accessors writes to the name. -/
def writes (parameterName : String) (code : List Placed) : Bool :=
  match code with
  | [] => false
  | entry :: _ =>
    entry.token.isPunctIn stepOperators ||
      (entry.token.isPunctIn assignmentOperators && !copiesParameter parameterName code)

/-- Whether a name between a token and the code after it is written. A step
operator in front writes it whatever follows. -/
def isWritten (tokens : List Token) (parameterPrefix : String) (previous : Option Token)
    (name : String) (rest : List Placed) : Except Fault Bool :=
  if Token.selectsMember previous then .ok false
  else if previous.any (·.isPunctIn stepOperators) then .ok true
  else if declares previous then .ok false
  else return writes (parameterPrefix ++ name) (← skipAccessors tokens rest)

def writtenFrom (tokens : List Token) (wanted : List String) (parameterPrefix : String)
    (previous : Option Token) : List Placed → Except Fault (List String)
  | [] => .ok []
  | entry :: rest => do
      let isName := entry.token.isWordIn wanted
      let here ←
        if isName then isWritten tokens parameterPrefix previous entry.token.text rest
        else .ok false
      let others ← writtenFrom tokens wanted parameterPrefix (some entry.token) rest
      return if here then entry.token.text :: others else others

/-- The wanted names that a source assigns to. Declarations with a value are not
assignments, nor is the copy of a name from its own parameter. -/
def written (wanted : List String) (parameterPrefix source : String) :
    Except Fault (List String) :=
  let tokens := Token.lex source
  writtenFrom tokens wanted parameterPrefix none (Token.code tokens)

def referencedFrom (wanted : List String) (previous : Option Token) : List Token → List String
  | [] => []
  | token :: rest =>
    let others := referencedFrom wanted (Token.significantAfter previous token) rest
    if token.isWordIn wanted && !(Token.selectsMember previous || declares previous) then
      token.text :: others
    else others

/-- The wanted names that a source uses anywhere but in their own declaration. -/
def referenced (wanted : List String) (source : String) : List String :=
  referencedFrom wanted none (Token.lex source)

end WebShader.Usage
