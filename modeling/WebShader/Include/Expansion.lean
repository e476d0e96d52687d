import WebShader.Include.Line
import WebShader.Noted
import WebShader.Path

/-!
Contract: replacing include lines by the files that they name.

Owns: the expansion of a source, the stack of files in it, and the limit on its
depth.

Does not own: where files come from.

A file that is already being expanded is not expanded again, a file that cannot
be had leaves a comment, and so does an include in a branch that is not live.
Only nesting beyond the limit stops the expansion.
-/

namespace WebShader.Include

open Text

abbrev Files := String → Except Fault String

/-- Macros defined so far, and the paths included and asked for, in order. -/
structure Progress where
  macros : List String
  included : List String
  fetched : List String
  deriving DecidableEq, Repr

/-- A computation that follows the progress of an expansion. -/
abbrev Expanding (α : Type) := ExceptT Fault (StateT Progress Noted) α

/-- Faults that leave a comment in the place of an include. -/
def isRecoverable : Fault → Bool
  | .notFetched .. | .unreadable | .missingFile | .isDirectory | .notDirectory => true
  | _ => false

/-- The text of a file, or nothing if it cannot be had. -/
def fetch? (files : Files) (target : String) : Expanding (Option String) := do
  modifyThe Progress fun progress => { progress with fetched := progress.fetched ++ [target] }
  match files target with
  | .ok text =>
    modifyThe Progress fun progress => { progress with included := progress.included ++ [target] }
    return some text
  | .error fault =>
    if isRecoverable fault then
      Noted.note (.includeFailed target fault)
      return none
    else throw fault

/-- Follows the definitions of a live line. -/
def defineMacro (line : Line) (progress : Progress) : Progress :=
  match line with
  | .define name =>
    if progress.macros.contains name then progress
    else { progress with macros := name :: progress.macros }
  | .undefine name => { progress with macros := progress.macros.filter (· != name) }
  | _ => progress

def isLive (branches : List Branch) : Bool :=
  branches.all Branch.isLive

structure Settings where
  files : Files
  maxDepth : Int

def levelsLeft (settings : Settings) (stack : List String) : Nat :=
  (settings.maxDepth + 1 - stack.length).toNat

theorem levelsLeft_push {settings : Settings} {stack : List String} {target : String}
    (within : ¬settings.maxDepth < stack.length) :
    levelsLeft settings (stack ++ [target]) < levelsLeft settings stack := by
  simp only [levelsLeft, List.length_append, List.length_cons, List.length_nil]
  omega

def skippedComment (target : String) : String :=
  "// Skipped include in inactive branch: " ++ target

def circularComment (target : String) : String :=
  "// Circular include skipped: " ++ target

def failedComment (target : String) : String :=
  "// Failed to include: " ++ target

def expandLines (settings : Settings) (stack : List String) (path : String)
    (branches : List Branch) : List String → Expanding (List String)
  | [] => pure []
  | line :: rest =>
    match Line.ofText line with
    | .group directive => do
        let progress ← getThe Progress
        let after := directive.apply progress.macros branches
        return line :: (← expandLines settings stack path after rest)
    | .include wanted =>
      let target := Path.resolve path wanted
      let replaced : Expanding String :=
        if !isLive branches then pure (skippedComment target)
        else if stack.contains target then do
          Noted.note (.circularInclude target stack)
          return circularComment target
        else if _tooDeep : settings.maxDepth < stack.length then
          throw (.includeTooDeep target stack.length)
        else
          fetch? settings.files target >>= fun found =>
            match found with
            | none => pure (failedComment target)
            | some text =>
              unlines <$> expandLines settings (stack ++ [target]) target [] (lines text)
      replaced >>= fun text => do
        return text :: (← expandLines settings stack path branches rest)
    | other => do
        if isLive branches then modifyThe Progress (defineMacro other)
        return line :: (← expandLines settings stack path branches rest)
termination_by sourceLines => (levelsLeft settings stack, sourceLines.length)
decreasing_by
  · apply Prod.Lex.right
    simp
  · apply Prod.Lex.left
    exact levelsLeft_push _tooDeep
  · apply Prod.Lex.right
    simp
  · apply Prod.Lex.right
    simp

def expand (settings : Settings) (source path : String) : Expanding String :=
  unlines <$> expandLines settings [path] path [] (lines source)

/-- Runs an expansion from predefined macros; the progress is known even if it fails. -/
def runExpansion {α : Type} (predefined : List String) (expanding : Expanding α) :
    Noted (Except Fault α × Progress) :=
  StateT.run expanding.run ⟨predefined, [], []⟩

end WebShader.Include
