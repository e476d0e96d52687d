import WebShader.Definition.Declaration

/-!
Contract: statements at the start and the end of `main`.

Owns: the insertion of entry and exit statements, and the initial values of
globals that move into `main`.

Does not own: where the statements come from.

A statement whose text stands in `main` already is not inserted.
-/

namespace WebShader.Emission

open Text

def indentation (width : Int) : String :=
  String.ofList (List.replicate width.toNat ' ')

def plainReturn : Reader Unit := do
  Reader.literal "return"
  Reader.blanks
  Reader.literal ";"

/-- The body with exit statements in front of every plain return and at the end. -/
def withExits (indent : String) (exits : List String) (body : String) : String :=
  if exits.isEmpty then body
  else
    let block := "\x7b " ++ String.intercalate " " exits ++ " return; \x7d"
    trimEnd (replaceAll wordStart plainReturn (fun _ => block) body) ++ "\n" ++
      String.join (exits.map fun statement => indent ++ statement ++ "\n")

/-- The statements that a body does not hold, each once. -/
def missingStatements (body : String) (statements : List String) : List String :=
  (statements.filter fun statement => !holds body statement).eraseDups

def withEntries (indent : String) (entries : List String) (body : String) : String :=
  if entries.isEmpty then body
  else "\n" ++ unlines (entries.map (indent ++ ·)) ++ body

def extendBody (indent : String) (entry exit : List String) (body : String) : String :=
  let exits := exit.filter fun statement => !holds body statement
  let ended := withExits indent exits body
  withEntries indent (missingStatements ended entry) ended

/-- Inserts statements into `main`. Without a `main` they are dropped. -/
def injectMain (indent : Int) (entry exit : List String) (source : String) :
    ExceptT Fault Noted String := do
  if entry.isEmpty && exit.isEmpty then return source
  let definitions ← (Definition.ofSource source : Except Fault (List Definition))
  match Definition.function? definitions "main" with
  | none =>
    Noted.note (.noMain entry.length exit.length)
    return source
  | some main =>
    let body := slice source main.bodyStart main.bodyStop
    return slice source 0 main.bodyStart ++
      extendBody (indentation indent) entry exit body ++
      String.ofList (source.toList.drop main.bodyStop)

/-- Whether a global keeps its initial value in its declaration. -/
def keepsInitializer (target : GlobalVariable) : Bool :=
  target.claimed || target.sharing == .constant || target.sharing == .uniformBacked

/-- A source whose globals are declared bare, and the assignments of their initial values. -/
structure Hoisted where
  source : String
  statements : List String
  deriving DecidableEq, Repr

def hoistOne (hoisted : Hoisted) (target : GlobalVariable) : Except Fault Hoisted := do
  if keepsInitializer target then return hoisted
  let found ← Declaration.replace? hoisted.source target (target.bareDeclaration ++ "\n")
  match found with
  | some ⟨text, some initializer⟩ =>
    return ⟨text, hoisted.statements ++ [target.name ++ " = " ++ trim initializer ++ ";"]⟩
  | _ => return hoisted

def hoistInitializers (globals : List GlobalVariable) (source : String) : Except Fault Hoisted :=
  globals.foldlM hoistOne ⟨source, []⟩

end WebShader.Emission
