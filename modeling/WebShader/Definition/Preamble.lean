import WebShader.Binding.Table
import WebShader.Definition.Span

/-!
Contract: what a shader defines before its first stage.

Owns: functions, structures, macros, constants and mutable globals of the
preamble, each found once, and their rendering as shared code.

Does not own: how globals travel between the stages; that is `CrossStage`.

A name that a parameter or a block member claims becomes a global without an
initial value, whether it was declared constant or not.
-/

namespace WebShader

open Text Reader

/-- How a mutable global is shared between the stages. -/
inductive Sharing where
  | unclassified
  | uniformBacked
  | constant
  | stageLocal
  | vertexChannel
  | bothStages
  deriving DecidableEq, Repr

namespace Sharing

open Reader

def label : Sharing → String
  | .unclassified => "unclassified"
  | .uniformBacked => "uniform_backed"
  | .constant => "constant"
  | .stageLocal => "stage_local"
  | .vertexChannel => "vertex_channel"
  | .bothStages => "both_stages"

end Sharing

structure FunctionDefinition where
  returnType : String
  name : String
  parameters : String
  text : String
  start : Nat
  stop : Nat
  deriving DecidableEq, Repr

structure StructDefinition where
  name : String
  text : String
  start : Nat
  stop : Nat
  deriving DecidableEq, Repr

/-- A macro kept as text; the parameter list is absent for an object-like one. -/
structure MacroDefinition where
  name : String
  value : String
  parameters : Option String
  deriving DecidableEq, Repr

namespace MacroDefinition

open Reader

def isFunctionLike (definition : MacroDefinition) : Bool :=
  definition.parameters.isSome

def render (definition : MacroDefinition) : String :=
  let head := match definition.parameters with
    | some parameters => definition.name ++ "(" ++ parameters ++ ")"
    | none => definition.name
  trimEnd ("#define " ++ head ++ " " ++ definition.value)

end MacroDefinition

structure ConstDefinition where
  typeName : String
  names : List String
  text : String
  deriving DecidableEq, Repr

structure GlobalVariable where
  typeName : String
  name : String
  initializer : Option String
  arraySuffix : String
  claimed : Bool
  sharing : Sharing
  deriving DecidableEq, Repr

namespace GlobalVariable

open Reader

def bareDeclaration (target : GlobalVariable) : String :=
  target.typeName ++ " " ++ target.name ++ target.arraySuffix ++ ";"

/-- The declaration; a claimed global never has an initial value. -/
def declaration (target : GlobalVariable) : String :=
  match target.claimed, target.initializer with
  | false, some initializer =>
    target.typeName ++ " " ++ target.name ++ target.arraySuffix ++ " = " ++
      initializer ++ ";"
  | _, _ => target.bareDeclaration

end GlobalVariable

structure Preamble where
  functions : List FunctionDefinition
  structs : List StructDefinition
  macros : List (String × MacroDefinition)
  consts : List ConstDefinition
  globals : List GlobalVariable
  deriving DecidableEq, Repr

namespace Preamble

open Reader

def empty : Preamble :=
  ⟨[], [], [], [], []⟩

def isEmpty (preamble : Preamble) : Bool :=
  preamble.functions.isEmpty && preamble.macros.isEmpty && preamble.consts.isEmpty &&
    preamble.globals.isEmpty && preamble.structs.isEmpty

def constNames (preamble : Preamble) : List String :=
  preamble.consts.flatMap ConstDefinition.names

def macroNames (preamble : Preamble) : List String :=
  preamble.macros.map (·.1)

def stagePragma : Reader Unit := do
  gap
  literal "#"
  gap
  literal "pragma"
  someGap
  literal "stage"
  wordEnd

def textOf? (source : String) : Option String :=
  (findAll lineStart stagePragma source).head?.map fun found => slice source 0 found.start

/-! Functions and structures. -/

/-- One blank for every run of blanks. -/
def squeezeBlanks (text : String) : String :=
  replaceAll anywhere someBlanks (fun _ => " ") text

/-- What tells two definitions of one thing apart from two things of one name. -/
def signature (definition : Definition) : DefinitionKind × String × String :=
  (definition.kind, definition.name, squeezeBlanks definition.parameters)

def firstOfEach (definitions : List Definition) : List Definition :=
  definitions.foldl
    (fun kept definition =>
      if (kept.map signature).contains (signature definition) then kept
      else kept ++ [definition]) []

def functionOf? (text : String) (definition : Definition) : Option FunctionDefinition :=
  match definition.kind with
  | .function => some
      { returnType := definition.returnType, name := definition.name,
        parameters := definition.parameters,
        text := slice text definition.start definition.stop,
        start := definition.start, stop := definition.stop }
  | .struct => none

def structOf? (text : String) (definition : Definition) : Option StructDefinition :=
  match definition.kind with
  | .struct => some
      { name := definition.name, text := slice text definition.start definition.stop,
        start := definition.start, stop := definition.stop }
  | .function => none

/-! Macros. -/

def joinContinued : List Char → List Char
  | '\\' :: '\n' :: rest => ' ' :: joinContinued rest
  | c :: rest => c :: joinContinued rest
  | [] => []

/-- A macro's name, its parameter list right after it, and its value. -/
def macroBody : Reader MacroDefinition := do
  blanks
  let first ← fun text : List Char =>
    match text with
    | c :: rest => if isNameStart c then some (c, rest) else none
    | [] => none
  let others ← Reader.run isWord
  let parameters ← Reader.optional (do literal "("; through ')')
  let value ← Reader.run fun _ => true
  return { name := String.ofList [first] ++ others, value := trim value,
           parameters := parameters.map trim }

/-- The text of a definition: the tokens up to the line end, without line comments. -/
def defineText (tokens : List Token) : String :=
  Token.render ((tokens.takeWhile (·.kind != .newline)).filter fun token =>
    !(token.kind == .comment && "//".toList.isPrefixOf token.text.toList))

/-- The macros that tokens define, in order; one that cannot be read is reported. -/
def macrosOf : List Token → Noted (List MacroDefinition)
  | [] => pure []
  | token :: rest =>
    if token.kind == .directive && Token.directiveName token == "define" then
      let text := defineText rest
      match macroBody.read? (joinContinued text.toList) with
      | some (definition, _) => do return definition :: (← macrosOf rest)
      | none => do
          Noted.note (.malformedPreambleDefine (trim text))
          macrosOf rest
    else macrosOf rest

/-! Declarations. -/

def opensBracket (token : Token) : Bool :=
  token.isPunctIn ["(", "[", "\x7b"]

def closesBracket (token : Token) : Bool :=
  token.isPunctIn [")", "]", "\x7d"]

/-- The bracket depth after a token. -/
def depthAfter (depth : Int) (token : Token) : Int :=
  if opensBracket token then depth + 1
  else if closesBracket token then depth - 1
  else depth

/-- Splits tokens at a separator outside all brackets; `part` is the one being read, reversed. -/
def splitFrom (separator : String) (depth : Int) (part : List Token) :
    List Token → List (List Token)
  | [] => [part.reverse]
  | token :: rest =>
    let after := depthAfter depth token
    if after == 0 && token.isPunct separator then
      part.reverse :: splitFrom separator after [] rest
    else splitFrom separator after (token :: part) rest

/-- The nonempty parts between separators that stand outside all brackets. -/
def splitTopLevel (separator : String) (tokens : List Token) : List (List Token) :=
  (splitFrom separator 0 [] tokens).filter (!·.isEmpty)

/-- The statements among tokens: each runs to a semicolon outside all brackets. -/
def statementsFrom (depth : Int) (statement : List Token) : List Token → List (List Token)
  | [] => []
  | token :: rest =>
    let after := depthAfter depth token
    if after == 0 && token.isPunct ";" then
      (token :: statement).reverse :: statementsFrom after [] rest
    else statementsFrom after (token :: statement) rest

def statements (tokens : List Token) (masks : SpanSet) : List (List Token) :=
  let code := (Token.code tokens).map Token.Placed.token
  statementsFrom 0 [] (code.filter fun token => !masks.contains token.start)

/-- Splits after the bracket that closes the one in front. All kinds count
alike; without a closing bracket everything belongs to the first part. -/
def splitClosing (depth : Int) : List Token → List Token × List Token
  | [] => ([], [])
  | token :: rest =>
    let after := depthAfter depth token
    if closesBracket token && after == 0 then ([token], rest)
    else
      let parts := splitClosing after rest
      (token :: parts.1, parts.2)

def afterParenthesis (depth : Int) : List Token → List Token
  | [] => []
  | token :: rest =>
    if token.isPunct "(" then afterParenthesis (depth + 1) rest
    else if token.isPunct ")" then
      if depth == 1 then rest else afterParenthesis (depth - 1) rest
    else afterParenthesis depth rest

theorem afterParenthesis_length (depth : Int) (tokens : List Token) :
    (afterParenthesis depth tokens).length ≤ tokens.length := by
  induction tokens generalizing depth with
  | nil => simp [afterParenthesis]
  | cons token rest ih =>
    simp only [afterParenthesis, List.length_cons]
    split
    · have := ih (depth + 1)
      omega
    · split
      · split
        · omega
        · have := ih (depth - 1)
          omega
      · have := ih depth
        omega

/-- The qualifiers in front of a declaration and what follows them. Layout
qualifiers are skipped; a precision statement declares nothing. -/
def splitQualifiers (qualifiers : List String) :
    List Token → Option (List String × List Token)
  | [] => some (qualifiers, [])
  | token :: rest =>
    if token.text == "precision" then none
    else if token.text == "layout" && rest.head?.any (·.isPunct "(") then
      splitQualifiers qualifiers (afterParenthesis 0 rest)
    else if token.text == "layout" || Definition.storageQualifiers.contains token.text then
      splitQualifiers (token.text :: qualifiers) rest
    else some (qualifiers, token :: rest)
termination_by tokens => tokens.length
decreasing_by
  · have := afterParenthesis_length 0 rest
    simp only [List.length_cons]
    omega
  · simp

structure Declarator where
  name : String
  arraySuffix : String
  initializer : Option String
  deriving DecidableEq, Repr

theorem splitClosing_length (depth : Int) (tokens : List Token) :
    (splitClosing depth tokens).2.length ≤ tokens.length := by
  induction tokens generalizing depth with
  | nil => simp [splitClosing]
  | cons token rest ih =>
    simp only [splitClosing, List.length_cons]
    split
    · simp
    · have := ih (depthAfter depth token)
      simp only
      omega

def splitArray : List Token → String × List Token
  | [] => ("", [])
  | token :: rest =>
    if token.isPunct "[" then
      let parts := splitClosing 1 rest
      let others := splitArray parts.2
      (Token.render (token :: parts.1) ++ others.1, others.2)
    else ("", token :: rest)
termination_by tokens => tokens.length
decreasing_by
  have := splitClosing_length 1 rest
  simp only [List.length_cons]
  omega

/-- A declarator; an initial value is taken from the source as it stands. -/
def declarator? (source : String) : List Token → Option Declarator
  | [] => none
  | token :: rest =>
    if !token.isIdent then none
    else
      let parts := splitArray rest
      match parts.2 with
      | [] => some ⟨token.text, parts.1, none⟩
      | equals :: value =>
        match equals.isPunct "=", value.head?, value.getLast? with
        | true, some first, some last =>
          some ⟨token.text, parts.1, some (trim (slice source first.start last.stop))⟩
        | _, _, _ => none

/-- The type in front of a declaration, with its array size, and what follows it. -/
def splitType? : List Token → Option (String × List Token)
  | token :: next :: rest =>
    if !token.isIdent then none
    else if next.isPunct "[" then
      let parts := splitClosing 1 rest
      some (token.text ++ Token.render (next :: parts.1), parts.2)
    else some (token.text, next :: rest)
  | _ => none

structure Declaration where
  isConst : Bool
  typeName : String
  declarators : List Declarator
  text : String

/-- Reads a declaration. Statements of the stage interface, and those with a
declarator that cannot be read, declare nothing here. -/
def declaration? (source : String) (statement : List Token) : Option Declaration := do
  let (qualifiers, afterQualifiers) ← splitQualifiers [] statement
  if qualifiers.any Definition.interfaceQualifiers.contains then none
  let (typeName, afterType) ← splitType? afterQualifiers
  if !(afterType.head?.any Token.isIdent) then none
  let declarators ← (splitTopLevel "," afterType.dropLast).mapM (declarator? source)
  let start := (statement.head?.map Token.start).getD 0
  let stop := (statement.getLast?.map Token.stop).getD 0
  return { isConst := qualifiers.contains "const", typeName, declarators,
           text := slice source start stop }

def addGlobal (claimed : List String) (typeName : String) (preamble : Preamble)
    (declarator : Declarator) : Noted Preamble :=
  if (preamble.globals.map GlobalVariable.name).contains declarator.name then do
    Noted.note (.repeatedGlobal declarator.name)
    return preamble
  else
    let isClaimed := claimed.contains declarator.name
    pure { preamble with
      globals := preamble.globals ++
        [{ typeName, name := declarator.name,
           initializer := if isClaimed then none else declarator.initializer,
           arraySuffix := declarator.arraySuffix, claimed := isClaimed,
           sharing := .unclassified }] }

def constText (typeName : String) (kept : List Declarator) : String :=
  let parts := kept.map fun declarator =>
    declarator.name ++ declarator.arraySuffix ++
      (match declarator.initializer with
        | some initializer => " = " ++ initializer
        | none => "")
  "const " ++ typeName ++ " " ++ String.intercalate ", " parts ++ ";"

/-- Adds a constant declaration. Claimed names become globals, and names that are
constants already are left out. -/
def addConst (claimed : List String) (preamble : Preamble) (declaration : Declaration) :
    Noted Preamble := do
  let known := preamble.constNames
  let kept := declaration.declarators.filter fun declarator =>
    !claimed.contains declarator.name && !known.contains declarator.name
  let taken := declaration.declarators.filter fun declarator => claimed.contains declarator.name
  let withGlobals ← taken.foldlM (addGlobal claimed declaration.typeName) preamble
  if kept.isEmpty then return withGlobals
  let text :=
    if kept.length == declaration.declarators.length then declaration.text
    else constText declaration.typeName kept
  return { withGlobals with
    consts := withGlobals.consts ++
      [{ typeName := declaration.typeName, names := kept.map Declarator.name, text }] }

def addStatement (source : String) (claimed : List String) (preamble : Preamble)
    (statement : List Token) : Noted Preamble :=
  match declaration? source statement with
  | none => pure preamble
  | some declaration =>
    if declaration.isConst then addConst claimed preamble declaration
    else declaration.declarators.foldlM (addGlobal claimed declaration.typeName) preamble

/-- The masks that keep statements from being read twice: definitions and bindings. -/
def masksOf (definitions : List Definition) (bindings : List Binding) : SpanSet :=
  (bindings.map fun binding => ((binding.start : Int), (binding.stop : Int))).foldl
    (fun masks span => masks.insert span.1 span.2) (Definition.spanSet definitions)

/-- The preamble of a source, given the names that parameters and bindings claim.
A source without a stage pragma has an empty one. -/
def ofSource (source : String) (claimed : List String) : ExceptT Fault Noted Preamble := do
  match textOf? source with
  | none => return empty
  | some text =>
    let tokens := Token.lex text
    let definitions ← (Definition.scan tokens : Except Fault _)
    let bindings ← Binding.table text
    let macros ← macrosOf tokens
    let distinct := firstOfEach definitions
    let start : Preamble :=
      { functions := distinct.filterMap (functionOf? text)
        structs := distinct.filterMap (structOf? text)
        macros := macros.foldl
          (fun entries definition => Assoc.put definition.name definition entries) []
        consts := []
        globals := [] }
    (statements tokens (masksOf definitions bindings)).foldlM
      (fun preamble statement => (addStatement text claimed preamble statement : Noted _)) start

/-! Rendering. -/

/-- Structures, constants, globals and functions as code. Macros travel as lines
of the source instead. -/
def render (preamble : Preamble) : String :=
  let sections :=
    [("\n", preamble.structs.map StructDefinition.text),
     ("\n", preamble.consts.map ConstDefinition.text),
     ("\n", preamble.globals.map GlobalVariable.declaration),
     ("\n\n", preamble.functions.map FunctionDefinition.text)]
  String.intercalate "\n\n"
    ((sections.filter fun entry => !entry.2.isEmpty).map fun entry =>
      String.intercalate entry.1 entry.2)

end Preamble

end WebShader
