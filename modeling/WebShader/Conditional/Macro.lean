import WebShader.Noted
import WebShader.Condition.Parser

/-!
Contract: macros as conditional compilation sees them.

Owns: the macro table, the reading of a definition's argument, the expansion of
a condition, and whether a condition holds under a table.

Does not own: the macros of emitted code, which are kept as text.

Only object-like macros expand. A macro does not expand inside its own
expansion, and expansions nest to a fixed depth.
-/

namespace WebShader.Conditional

open Text

/-- A macro; the parameter list is absent for an object-like one. -/
structure Macro where
  name : String
  value : String
  parameters : Option String
  deriving DecidableEq, Repr

structure MacroTable where
  macros : List Macro
  deriving DecidableEq, Repr

namespace MacroTable

def empty : MacroTable :=
  ⟨[]⟩

def find? (table : MacroTable) (name : String) : Option Macro :=
  table.macros.find? (·.name == name)

def defines (table : MacroTable) (name : String) : Bool :=
  (table.find? name).isSome

def erase (table : MacroTable) (name : String) : MacroTable :=
  ⟨table.macros.filter (·.name != name)⟩

/-- Adds a macro; one of the same name is replaced. -/
def insert (table : MacroTable) (definition : Macro) : MacroTable :=
  ⟨(table.erase definition.name).macros ++ [definition]⟩

def ofPairs (pairs : List (String × String)) : MacroTable :=
  pairs.foldl (fun table pair => table.insert ⟨pair.1, pair.2, none⟩) empty

end MacroTable

/-- A parenthesised list at the front: its inside and what follows. -/
def parameterList? : List Char → Option (List Char × List Char)
  | '(' :: rest => cutAtFirst? ')' rest
  | _ => none

/-- The macro that the argument of a definition describes: a name, a parameter
list right after it, and the value. -/
def Macro.ofArgument? (argument : String) : Option Macro :=
  match argument.toList with
  | [] => none
  | first :: following =>
    if !isNameStart first then none
    else
      let name := String.ofList (first :: following.takeWhile isWord)
      let afterName := following.dropWhile isWord
      match parameterList? afterName with
      | some (inside, afterList) =>
        some ⟨name, trim (String.ofList afterList), some (String.ofList inside)⟩
      | none => some ⟨name, trim (String.ofList afterName), none⟩

/-- Whether a name may start after a character: not inside a word. -/
def startsWord (previous : Option Char) : Bool :=
  !previous.any isWord

/-- The operand of a definedness test: a name, in parentheses or not. The answer
gives the name and what follows it. -/
def definedOperand? (text : List Char) : Option (List Char × List Char) :=
  match text.dropWhile isBlank with
  | '(' :: inside =>
    match inside.dropWhile isBlank with
    | first :: following =>
      if isNameStart first then
        match (following.dropWhile isWord).dropWhile isBlank with
        | ')' :: rest => some (first :: following.takeWhile isWord, rest)
        | _ => none
      else none
    | [] => none
  | first :: following =>
    if isNameStart first then
      some (first :: following.takeWhile isWord, following.dropWhile isWord)
    else none
  | [] => none

def definedTest? (text : List Char) : Option (List Char × List Char) :=
  (afterPrefix? "defined".toList text).bind definedOperand?

/-- Replaces definedness tests by one or zero, skipping characters already covered. -/
def replaceDefinedFrom (table : MacroTable) (previous : Option Char) (skip : Nat) :
    List Char → List Char
  | [] => []
  | c :: rest =>
    match skip with
    | remaining + 1 => replaceDefinedFrom table (some c) remaining rest
    | 0 =>
      match if startsWord previous then definedTest? (c :: rest) else none with
      | some (name, after) =>
        (if table.defines (String.ofList name) then '1' else '0') ::
          replaceDefinedFrom table (some c) (rest.length - after.length) rest
      | none => c :: replaceDefinedFrom table (some c) 0 rest

def MacroTable.replaceDefined (table : MacroTable) (expression : String) : String :=
  String.ofList (replaceDefinedFrom table none 0 expression.toList)

/-- A stretch of an expression: a whole name, or a character that starts none. -/
inductive Piece where
  | name (text : String)
  | other (character : Char)
  deriving DecidableEq, Repr

/-- Cuts an expression into whole names and other characters. -/
def piecesFrom (previous : Option Char) : List Char → List Piece
  | [] => []
  | c :: rest =>
    if isNameStart c && startsWord previous then
      .name (String.ofList (c :: rest.takeWhile isWord)) ::
        piecesFrom ((c :: rest.takeWhile isWord).getLast?) (rest.dropWhile isWord)
    else .other c :: piecesFrom (some c) rest
termination_by text => text.length
decreasing_by
  · have := (List.dropWhile_suffix isWord (l := rest)).length_le
    simp only [List.length_cons]
    omega
  · simp

def pieces (expression : String) : List Piece :=
  piecesFrom none expression.toList

def maxExpansions : Nat := 32

/-- Expands the object-like macros of an expression, down to `depth` nested
expansions and never one inside its own expansion. A macro's expansion is put in
parentheses; an empty one leaves nothing. -/
def MacroTable.expandWithin (table : MacroTable) (depth : Nat) (enclosing : List String)
    (expression : String) : String :=
  match depth with
  | 0 => expression
  | remaining + 1 =>
    String.join ((pieces expression).map fun
      | .other character => String.ofList [character]
      | .name name =>
        match table.find? name with
        | some ⟨_, value, none⟩ =>
          if enclosing.contains name then name
          else
            let expansion := table.expandWithin remaining (name :: enclosing) value
            if expansion.isEmpty then "" else "(" ++ expansion ++ ")"
        | _ => name)

def MacroTable.expand (table : MacroTable) (expression : String) : String :=
  table.expandWithin maxExpansions [] expression

/-- Whether a condition holds. One without a value does not, and is reported. -/
def MacroTable.conditionHolds (table : MacroTable) (expression : String) : Noted Bool :=
  match Condition.holds (table.expand (table.replaceDefined expression)) with
  | .ok result => pure result
  | .error cause => do
      Noted.note (.conditionWithoutValue expression cause)
      return false

end WebShader.Conditional
