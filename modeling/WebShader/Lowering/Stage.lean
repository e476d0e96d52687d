import WebShader.Annotation
import WebShader.Definition.Preamble
import WebShader.Lowering.Uniform
import WebShader.Options
import WebShader.Stage.Basic

/-!
Contract: turning bindings into plain uniforms.

Owns: removing binding declarations from a stage, turning member accesses into
flat names, declaring the uniforms that the stage refers to, and the copies of
prefixed uniforms into their globals.

Does not own: the binding table itself.

A member or parameter whose name is also a global gets a prefixed uniform; the
global is assigned from it at the start of `main`.
-/

namespace WebShader.Lowering

open Text

structure Context where
  bindings : List Binding
  parameterNames : List String
  globals : List GlobalVariable
  parameterPrefix : String

namespace Context

/-- The globals by name; of two with one name the last counts, in the first one's place. -/
def globalTable (context : Context) : List (String × GlobalVariable) :=
  context.globals.foldl (fun entries global => Assoc.put global.name global entries) []

def isGlobal (context : Context) (name : String) : Bool :=
  context.globals.any (·.name == name)

def prefixed (context : Context) (name : String) : String :=
  context.parameterPrefix ++ name

def flatName (context : Context) (name : String) : String :=
  if context.isGlobal name then context.prefixed name else name

/-- The blocks by the name through which they are used; the last of a name counts. -/
def blockNamed? (context : Context) (name : String) : Option Binding :=
  (context.bindings.filter fun binding =>
    binding.kind != .sampler && binding.instanceName == some name && !name.isEmpty).getLast?

end Context

/-! Removing declarations. -/

/-- Removes a span. Where only blanks are left of its lines, they go with it. -/
def removeSpan (source : List Char) (start stop : Nat) : List Char :=
  let isLineEnd (c : Char) : Bool := c == '\n'
  let before := source.take start
  let after := source.drop stop
  let lineBefore := (before.reverse.takeWhile (!isLineEnd ·)).reverse
  let lineAfter := after.takeWhile (!isLineEnd ·)
  if lineBefore.all isBlank && lineAfter.all isBlank then
    before.take (before.length - lineBefore.length) ++ after.drop (lineAfter.length + 1)
  else before ++ after

def removeBindings (source : String) : Noted String := do
  let bindings ← Binding.table source
  return String.ofList (bindings.foldr
    (fun binding text => removeSpan text binding.start binding.stop) source.toList)

/-! Member accesses. -/

/-- The next token that is neither blank nor comment, and what follows it. A line
end stops the search. -/
def nextOnLine? : List Token → Option (Token × List Token)
  | [] => none
  | token :: rest =>
    match token.kind with
    | .whitespace | .comment => nextOnLine? rest
    | .newline => none
    | _ => some (token, rest)

theorem nextOnLine?_length {tokens rest : List Token} {token : Token}
    (found : nextOnLine? tokens = some (token, rest)) : rest.length < tokens.length := by
  induction tokens with
  | nil => simp [nextOnLine?] at found
  | cons head tail ih =>
    simp only [nextOnLine?] at found
    split at found
    · have := ih found
      simp only [List.length_cons]
      omega
    · have := ih found
      simp only [List.length_cons]
      omega
    · cases found
    · cases found
      simp

/-- A point and a member name on the same line, and what follows them. -/
def memberAccess? (tokens : List Token) : Option (Token × List Token) :=
  match nextOnLine? tokens with
  | none => none
  | some (dot, afterDot) =>
    match nextOnLine? afterDot with
    | none => none
    | some (member, rest) =>
      if dot.isPunct "." && member.isIdent then some (member, rest) else none

theorem memberAccess?_length {tokens rest : List Token} {member : Token}
    (found : memberAccess? tokens = some (member, rest)) : rest.length < tokens.length := by
  unfold memberAccess? at found
  split at found
  · cases found
  · rename_i afterDot first
    split at found
    · cases found
    · rename_i member' rest' second
      split at found
      · cases found
        have := nextOnLine?_length first
        have := nextOnLine?_length second
        omega
      · cases found

/-- The block that a token refers to: a name that is not itself a member. -/
def blockAt? (context : Context) (previous : Option Token) (token : Token) : Option Binding :=
  if token.isIdent && !Token.selectsMember previous then context.blockNamed? token.text else none

def flattenFrom (context : Context) (previous : Option Token) :
    List Token → Noted (List String)
  | [] => pure []
  | token :: rest =>
    let keep : Noted (List String) := do
      return token.text :: (← flattenFrom context (Token.significantAfter previous token) rest)
    match blockAt? context previous token with
    | none => keep
    | some binding =>
      match _access : memberAccess? rest with
      | none => keep
      | some (member, after) =>
        if binding.memberNames.contains member.text then do
          return context.flatName member.text ::
            (← flattenFrom context (some member) after)
        else do
          Noted.note (.notAMember token.text member.text binding.typeName)
          keep
termination_by tokens => tokens.length
decreasing_by
  · simp
  · have := memberAccess?_length _access
    simp only [List.length_cons]
    omega

def flattenMembers (context : Context) (source : String) : Noted String := do
  return String.join (← flattenFrom context none (Token.lex source))

/-! Declarations. -/

/-- A uniform that a stage may have to declare. -/
structure Candidate where
  typeName : String
  name : String
  arraySuffix : String
  deriving DecidableEq, Repr

def Candidate.declaration (candidate : Candidate) : String :=
  "uniform " ++ candidate.typeName ++ " " ++ candidate.name ++ candidate.arraySuffix ++ ";"

/-- Whether a uniform is used: by its own name, or through the global that it feeds. -/
def isNeeded (referenced : List String) (name flat : String) : Bool :=
  referenced.contains flat || (flat != name && referenced.contains name)

/-- Scalar integers become floats; every other type stays. -/
def uniformType (typeName : String) : String :=
  if typeName == "int" || typeName == "uint" then "float" else typeName

def bindingCandidates (context : Context) (referenced : List String) (binding : Binding) :
    List Candidate :=
  match binding.kind with
  | .sampler =>
    match binding.instanceName with
    | some name =>
      if referenced.contains name then [⟨binding.typeName, name, ""⟩] else []
    | none => []
  | _ =>
    (binding.members.filter fun member =>
      isNeeded referenced member.name (context.flatName member.name)).map fun member =>
        ⟨uniformType member.typeName, context.flatName member.name, member.arraySuffix⟩

def blockMembers (context : Context) : List String :=
  (context.bindings.filter (·.kind != .sampler)).flatMap Binding.memberNames

/-- The uniform of a parameter that no block holds. A macro of the plain name
provides it instead. -/
def parameterCandidate? (context : Context) (referenced macros : List String) (name : String) :
    Option Candidate :=
  let flat := context.flatName name
  if (blockMembers context).contains name then none
  else if flat == name && macros.contains name then none
  else if isNeeded referenced name flat then some ⟨"float", flat, ""⟩
  else none

/-- The candidates whose names are not declared yet, each name once. -/
def undeclared (declared : List String) : List Candidate → List Candidate
  | [] => []
  | candidate :: rest =>
    if declared.contains candidate.name then undeclared declared rest
    else candidate :: undeclared (candidate.name :: declared) rest

def neededUniforms (context : Context) (source : String) : List Candidate :=
  let referenced := Token.references source
  let fromBindings := context.bindings.flatMap (bindingCandidates context referenced)
  let fromParameters :=
    context.parameterNames.filterMap (parameterCandidate? context referenced (definedMacros source))
  undeclared ((declaredUniforms source).map Uniform.name) (fromBindings ++ fromParameters)

def lower (context : Context) (source : String) : Noted String := do
  let withoutBindings ← removeBindings source
  let flat ← flattenMembers context withoutBindings
  let plain := dropSelfDefinitions flat
  return insertDeclarations plain ((neededUniforms context plain).map Candidate.declaration)

/-! Copies into globals. -/

/-- The declared type of a uniform; the last declaration of a name counts. -/
def declaredType? (uniforms : List Uniform) (name : String) : Option String :=
  (uniforms.filter (·.name == name)).getLast?.map Uniform.typeName

/-- The assignment of a global from its prefixed uniform, converted where the types differ. -/
def entryAssignment? (context : Context) (uniforms : List Uniform) (referenced : List String)
    (name : String) (global : GlobalVariable) : Option String :=
  let uniform := context.prefixed name
  match declaredType? uniforms uniform with
  | none => none
  | some typeName =>
    if !referenced.contains name then none
    else
      let converts :=
        global.typeName != typeName && (integerTypes ++ ["bool"]).contains global.typeName
      let value := if converts then global.typeName ++ "(" ++ uniform ++ ")" else uniform
      some (name ++ " = " ++ value ++ ";")

def entryAssignments (context : Context) (lowered : String) : List String :=
  let uniforms := declaredUniforms lowered
  let referenced := Token.references lowered
  context.globalTable.filterMap fun entry =>
    entryAssignment? context uniforms referenced entry.1 entry.2

def addMissing (statements additions : List String) : List String :=
  additions.foldl
    (fun kept statement => if kept.contains statement then kept else kept ++ [statement]) statements

def lowerStage (context : Context) (program : StageProgram) : Noted StageProgram := do
  let source ← lower context program.source
  return { program with
    source
    entry := addMissing program.entry (entryAssignments context source) }

end WebShader.Lowering
