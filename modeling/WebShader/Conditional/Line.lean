import WebShader.Text.Basic

/-!
Contract: the lines that conditional compilation works on.

Owns: joining continued directives, stripping comments, and telling directives
from other lines.

Does not own: what a directive does.
-/

namespace WebShader.Conditional

open Text

def endsWithBackslash (text : String) : Bool :=
  text.toList.getLast? == some '\\'

def opensWithHash (text : String) : Bool :=
  text.toList.head? == some '#'

private def dropLastCharacter (text : String) : String :=
  String.ofList text.toList.dropLast

/-- Joins directive lines that end in a backslash with what follows them. A
`pending` line ends in a backslash. -/
def joinFrom (pending : Option String) : List String → List String
  | [] =>
    match pending with
    | some text => [dropLastCharacter text]
    | none => []
  | line :: rest =>
    match pending with
    | some text =>
      let joined := trimEnd (dropLastCharacter text) ++ " " ++ trimStart line
      if endsWithBackslash (trimEnd joined) then joinFrom (some (trimEnd joined)) rest
      else joined :: joinFrom none rest
    | none =>
      if opensWithHash (trimStart line) && endsWithBackslash (trimEnd line) then
        joinFrom (some (trimEnd line)) rest
      else line :: joinFrom none rest

def joinedLines (source : String) : List String :=
  joinFrom none (lines source)

def afterBlockComment? : List Char → Option (List Char)
  | '*' :: '/' :: rest => some rest
  | _ :: rest => afterBlockComment? rest
  | [] => none

theorem afterBlockComment?_length {text rest : List Char}
    (found : afterBlockComment? text = some rest) : rest.length < text.length := by
  fun_induction afterBlockComment? text with
  | case1 rest' =>
    cases found
    simp only [List.length_cons]
    omega
  | case2 _ tail _ ih =>
    have := ih found
    simp only [List.length_cons]
    omega
  | case3 => cases found

def blankBlockComments : List Char → List Char
  | '/' :: '*' :: rest =>
    match _found : afterBlockComment? rest with
    | some after => ' ' :: blankBlockComments after
    | none => '/' :: '*' :: blankBlockComments rest
  | c :: rest => c :: blankBlockComments rest
  | [] => []
termination_by text => text.length
decreasing_by
  · have := afterBlockComment?_length _found
    simp only [List.length_cons]
    omega
  · simp only [List.length_cons]
    omega
  · simp

def cutLineComment : List Char → List Char
  | '/' :: '/' :: _ => []
  | c :: rest => c :: cutLineComment rest
  | [] => []

def withoutComments (text : List Char) : List Char :=
  cutLineComment (blankBlockComments text)

/-- A directive has a keyword and an argument without comments. -/
structure Directive where
  keyword : String
  argument : String
  deriving DecidableEq, Repr

def Directive.ofLine? (line : String) : Option Directive :=
  match line.toList.dropWhile isBlank with
  | '#' :: rest =>
    let text := rest.dropWhile isBlank
    let keyword := text.takeWhile isWord
    if keyword.isEmpty then none
    else
      some
        { keyword := String.ofList keyword
          argument := trim (String.ofList (withoutComments (text.dropWhile isWord))) }
  | _ => none

end WebShader.Conditional
