import WebShader.Conditional.Line
import WebShader.Conditional.Macro

/-!
Contract: resolving conditional compilation in a source.

Owns: the stack of open groups, the effect of every directive on it and on the
macro table, and `resolve`.

Does not own: includes, which are expanded before.

Conditional directives are consumed. Every other line is kept, word for word,
exactly where all open groups are active.
-/

namespace WebShader.Conditional

/-- An open group. `taken` tells that one of its branches was chosen already. -/
structure Group where
  active : Bool
  taken : Bool
  parentActive : Bool
  deriving DecidableEq, Repr

/-- Macros in force and the open groups, the innermost first. -/
structure State where
  table : MacroTable
  groups : List Group
  deriving DecidableEq, Repr

namespace State

def isActive (state : State) : Bool :=
  state.groups.all Group.active

def firstWord (argument : String) : String :=
  (Text.words argument).headD ""

def pushGroup (state : State) (group : Group) : State :=
  { state with groups := group :: state.groups }

def openTest (state : State) (wanted : Bool) (name : String) : State :=
  let chosen := state.table.defines name == wanted
  state.pushGroup
    { active := state.isActive && chosen, taken := chosen, parentActive := state.isActive }

/-- Opens a group by a condition, which is evaluated in active code only. -/
def openCondition (state : State) (expression : String) : Noted State := do
  let chosen ← if state.isActive then state.table.conditionHolds expression else pure false
  return state.pushGroup { active := chosen, taken := chosen, parentActive := state.isActive }

/-- A further condition of the innermost group, evaluated if no branch was chosen yet. -/
def elseCondition (state : State) (expression : String) : Noted State :=
  match state.groups with
  | [] => do
      Noted.note (.directiveOutsideGroup .elif)
      return state
  | group :: outer =>
    if group.taken || !group.parentActive then
      pure { state with groups := { group with active := false } :: outer }
    else do
      let chosen ← state.table.conditionHolds expression
      return { state with groups := { group with active := chosen, taken := chosen } :: outer }

def otherwise (state : State) : Noted State :=
  match state.groups with
  | [] => do
      Noted.note (.directiveOutsideGroup .otherwise)
      return state
  | group :: outer =>
    let last := { group with active := group.parentActive && !group.taken, taken := true }
    pure { state with groups := last :: outer }

def closeGroup (state : State) : Noted State :=
  match state.groups with
  | [] => do
      Noted.note (.directiveOutsideGroup .endif)
      return state
  | _ :: outer => pure { state with groups := outer }

def define (state : State) (argument : String) : Noted State :=
  match Macro.ofArgument? argument with
  | some definition => pure { state with table := state.table.insert definition }
  | none => do
      Noted.note (.malformedDefine argument)
      return state

def undefine (state : State) (argument : String) : State :=
  { state with table := state.table.erase (firstWord argument) }

/-- The effect of a conditional directive; none for every other keyword. -/
def conditional? (state : State) (directive : Directive) : Option (Noted State) :=
  match directive.keyword with
  | "if" => some (state.openCondition directive.argument)
  | "ifdef" => some (pure (state.openTest true (firstWord directive.argument)))
  | "ifndef" => some (pure (state.openTest false (firstWord directive.argument)))
  | "elif" => some (state.elseCondition directive.argument)
  | "else" => some state.otherwise
  | "endif" => some state.closeGroup
  | _ => none

/-- The effect of a directive that is not conditional, in active code. -/
def apply (state : State) (directive : Directive) : Noted State :=
  match directive.keyword with
  | "define" => state.define directive.argument
  | "undef" => pure (state.undefine directive.argument)
  | _ => pure state

def step (state : State) (line : String) : Noted (Bool × State) :=
  match Directive.ofLine? line with
  | none => pure (state.isActive, state)
  | some directive =>
    match state.conditional? directive with
    | some effect => do return (false, ← effect)
    | none =>
      if state.isActive then do return (true, ← state.apply directive)
      else pure (false, state)

def run (state : State) : List String → Noted (List String × State)
  | [] => pure ([], state)
  | line :: rest => do
      let (kept, next) ← state.step line
      let (others, final) ← next.run rest
      return (if kept then line :: others else others, final)

end State

/-- The source that is left after conditional compilation, and the macros in force at its end. -/
def resolve (predefined : List (String × String)) (source : String) :
    Noted (String × MacroTable) := do
  let (kept, final) ← State.run ⟨MacroTable.ofPairs predefined, []⟩ (joinedLines source)
  Noted.noteIf (!final.groups.isEmpty) (.unterminatedGroups final.groups.length)
  return (Text.unlines kept, final.table)

end WebShader.Conditional
