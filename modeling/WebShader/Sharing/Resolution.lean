import WebShader.Definition.Declaration
import WebShader.Lowering.Uniform
import WebShader.Options
import WebShader.Session
import WebShader.Sharing.Classification
import WebShader.Sharing.Reference
import WebShader.Stage.Basic

/-!
Contract: carrying globals from the vertex to the fragment stage.

Owns: the type and the declarations of a channel, and the change of both stages
for each global that is carried.

Does not own: the classes; those are `Sharing.Classification`.

A global that only the vertex stage writes becomes the channel itself. One that
both stages write is handed over at the end of the vertex stage and received at
the start of the fragment stage.
-/

namespace WebShader.Sharing

open Text Reader

/-- The type of the channel of a global: booleans travel as integers, and the
older dialect carries floats only. -/
def channelType (modern : Bool) (typeName : String) : String :=
  let unprefixed := String.ofList (typeName.toList.drop 1)
  if modern then
    if typeName == "bool" then "int"
    else if booleanTypes.contains typeName then "i" ++ unprefixed
    else typeName
  else if ["bool", "int", "uint"].contains typeName then "float"
  else if (integerTypes ++ booleanTypes).contains typeName then unprefixed
  else typeName

inductive ChannelSide where
  | output
  | input
  deriving DecidableEq, Repr

def ChannelSide.word : ChannelSide → String
  | .output => "out"
  | .input => "in"

/-- The declaration; integers are not interpolated. -/
def channelDeclaration (modern : Bool) (side : ChannelSide) (channel : Channel) : String :=
  let flat := if modern && integerTypes.contains channel.typeName then "flat " else ""
  flat ++ side.word ++ " " ++ channel.typeName ++ " " ++ channel.name ++ ";"

/-- A declaration of the channel, from its side to the semicolon. -/
def declaredChannel (side : ChannelSide) (channel : Channel) : Reader Unit := do
  literal side.word
  someBlanks
  let _ ← word
  someBlanks
  literal channel.name
  blanks
  literal ";"

def isDeclared (side : ChannelSide) (channel : Channel) (source : String) : Bool :=
  !(findAll wordStart (declaredChannel side channel) source).isEmpty

def declareChannel (modern : Bool) (side : ChannelSide) (channel : Channel) (source : String) :
    String :=
  if isDeclared side channel source then source
  else Lowering.insertDeclarations source [channelDeclaration modern side channel]

/-- A source with the declaration of a global replaced, where there is one. -/
def replaceDeclaration (target : GlobalVariable) (replacement source : String) :
    Except Fault String := do
  let found ← Declaration.replace? source target replacement
  return (found.map Declaration.Replacement.text).getD source

def addStatement (statements : List String) (statement : String) : List String :=
  if statements.contains statement then statements else statements ++ [statement]

structure StagePair where
  vertex : StageProgram
  fragment : StageProgram
  deriving DecidableEq, Repr

/-- The source of a stage with the channel in the place of the global. -/
def adoptChannel (modern : Bool) (side : ChannelSide) (target : GlobalVariable)
    (channel : Channel) (source : String) : Except Fault String := do
  let removed ← replaceDeclaration target "" source
  return declareChannel modern side channel (redirectReferences target.name channel removed)

/-- The global becomes the channel; its initial value is stored at the start. -/
def becomeChannel (modern : Bool) (target : GlobalVariable) (channel : Channel)
    (stages : StagePair) : Except Fault StagePair := do
  let vertexSource ← adoptChannel modern .output target channel stages.vertex.source
  let fragmentSource ← adoptChannel modern .input target channel stages.fragment.source
  let entry := match target.initializer with
    | some initializer =>
      addStatement stages.vertex.entry
        (channel.name ++ " = " ++ channel.ofExpression initializer ++ ";")
    | none => stages.vertex.entry
  return {
    vertex := { stages.vertex with source := vertexSource, entry }
    fragment := { stages.fragment with source := fragmentSource } }

def handOver (modern : Bool) (target : GlobalVariable) (channel : Channel)
    (stages : StagePair) : Except Fault StagePair := do
  let received ← replaceDeclaration target (target.bareDeclaration ++ "\n") stages.fragment.source
  return {
    vertex := { stages.vertex with
      source := declareChannel modern .output channel stages.vertex.source
      exit := addStatement stages.vertex.exit
        (channel.name ++ " = " ++ channel.ofExpression target.name ++ ";") }
    fragment := { stages.fragment with
      source := declareChannel modern .input channel received
      entry := addStatement stages.fragment.entry
        (target.name ++ " = " ++ channel.read ++ ";") } }

def carry (modern : Bool) (stages : StagePair) (target : GlobalVariable) :
    Compilation StagePair := do
  match target.sharing with
  | .vertexChannel =>
    let channel ← allocate
    (becomeChannel modern target channel stages : Except Fault StagePair)
  | .bothStages =>
    let channel ← allocate
    (handOver modern target channel stages : Except Fault StagePair)
  | _ => return stages
where
  allocate : Compilation Channel :=
    Compilation.channelFor target.name (channelType modern target.typeName) target.typeName

structure Resolved where
  stages : StagePair
  globals : List GlobalVariable
  deriving DecidableEq, Repr

def resolve (options : Options) (knownConstants : List String) (globals : List GlobalVariable)
    (stages : StagePair) : Compilation Resolved := do
  let classified ← Compilation.ofChecked (classify options.parameterPrefix knownConstants globals
    stages.vertex.source stages.fragment.source)
  return {
    stages := ← classified.foldlM (carry options.modern) stages
    globals := classified }

end WebShader.Sharing
