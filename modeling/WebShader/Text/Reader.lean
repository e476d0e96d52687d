import WebShader.Text.Basic

/-!
Contract: small readers of shader text, and their matches in a source.

Owns: readers that take characters from the front or fail, the few readers
every pattern is built from, and the search for all places where a reader
succeeds.

Does not own: the patterns themselves.

A reader that fails takes nothing. A search goes from left to right, and its
matches do not overlap.
-/

namespace WebShader.Text

/-- Takes characters from the front of a text, or fails. -/
abbrev Reader (α : Type) := StateT (List Char) Option α

namespace Reader

/-- Runs a reader on a text: its result and what is left. -/
def read? {α : Type} (reader : Reader α) (text : List Char) : Option (α × List Char) :=
  StateT.run reader text

def fail {α : Type} : Reader α :=
  fun _ => none

/-- Exactly these characters. -/
def literal (wanted : String) : Reader Unit :=
  fun text => (afterPrefix? wanted.toList text).map fun rest => ((), rest)

def literalIn : List String → Reader String
  | [] => fail
  | word :: others =>
    (literal word *> pure word) <|> literalIn others

/-- The longest run of a class, which may be empty. -/
def run (inClass : Char → Bool) : Reader String :=
  fun text => some (String.ofList (text.takeWhile inClass), text.dropWhile inClass)

/-- The longest run of a class, at least one character. -/
def someRun (inClass : Char → Bool) : Reader String :=
  fun text =>
    let found := text.takeWhile inClass
    if found.isEmpty then none else some (String.ofList found, text.dropWhile inClass)

def blanks : Reader Unit :=
  run isBlank *> pure ()

def someBlanks : Reader Unit :=
  someRun isBlank *> pure ()

def isSpaceOrTab (c : Char) : Bool :=
  c == ' ' || c == '\t'

/-- Spaces and tabs, possibly none. -/
def gap : Reader Unit :=
  run isSpaceOrTab *> pure ()

def someGap : Reader Unit :=
  someRun isSpaceOrTab *> pure ()

/-- Skips spaces and tabs, as many as `next` can follow, and goes on with it. -/
def afterGap {α : Type} (next : Reader α) : Reader α
  | [] => next []
  | c :: rest =>
    if isSpaceOrTab c then afterGap next rest <|> next (c :: rest)
    else next (c :: rest)

/-- Skips at least one space or tab, and as many as `next` can follow. -/
def afterSomeGap {α : Type} (next : Reader α) : Reader α
  | [] => none
  | c :: rest => if isSpaceOrTab c then afterGap next rest else none

def word : Reader String :=
  someRun isWord

/-- Everything before the first occurrence of a character, which is taken too. -/
def through (closer : Char) : Reader String :=
  fun text => (cutAtFirst? closer text).map fun parts => (String.ofList parts.1, parts.2)

/-- What the reader reads, or nothing at all. -/
def optional {α : Type} (reader : Reader α) : Reader (Option α) :=
  fun text =>
    match reader text with
    | some (value, rest) => some (some value, rest)
    | none => some (none, text)

/-- Succeeds where no word character follows. -/
def wordEnd : Reader Unit :=
  fun text => if text.head?.any isWord then none else some ((), text)

def atEnd : Reader Unit :=
  fun text => if text.isEmpty then some ((), text) else none

/-- Succeeds where the reader would, and takes nothing. -/
def ahead {α : Type} (reader : Reader α) : Reader Unit :=
  fun text => (reader text).map fun _ => ((), text)

def repeatedAtMost {α : Type} (reader : Reader α) : Nat → Reader Unit
  | 0 => pure ()
  | count + 1 => (reader *> repeatedAtMost reader count) <|> pure ()

/-- As often as a reader that takes at least one character succeeds in a row. -/
def repeated {α : Type} (reader : Reader α) : Reader Unit := do
  repeatedAtMost reader (← get).length

def bracketed : Reader String := do
  literal "["
  let inside ← through ']'
  return "[" ++ inside ++ "]"

end Reader

/-- Where a reader succeeded, and what it read. -/
structure Found (α : Type) where
  start : Nat
  stop : Nat
  value : α

/-- A search starts a match only after a character that allows it. -/
abbrev Opening := Option Char → Bool

def anywhere : Opening :=
  fun _ => true

def lineStart : Opening :=
  fun previous => previous.all (· == '\n')

def wordStart : Opening :=
  fun previous => !previous.any isWord

/-- The matches from an offset on; `skip` characters belong to the last match. -/
def findAllFrom {α : Type} (opening : Opening) (reader : Reader α)
    (previous : Option Char) (offset skip : Nat) : List Char → List (Found α)
  | [] => []
  | c :: rest =>
    match skip with
    | remaining + 1 => findAllFrom opening reader (some c) (offset + 1) remaining rest
    | 0 =>
      match if opening previous then reader.read? (c :: rest) else none with
      | some (value, after) =>
        let covered := rest.length - after.length
        ⟨offset, offset + 1 + covered, value⟩ ::
          findAllFrom opening reader (some c) (offset + 1) covered rest
      | none => findAllFrom opening reader (some c) (offset + 1) 0 rest

/-- All matches of a reader that takes at least one character. -/
def findAll {α : Type} (opening : Opening) (reader : Reader α) (text : String) : List (Found α) :=
  findAllFrom opening reader none 0 0 text.toList

/-- Puts a replacement in the place of each match; matches ascend. -/
def replaceFound {α : Type} (replacement : α → String) (offset : Nat) (text : List Char) :
    List (Found α) → List Char
  | [] => text
  | found :: others =>
    text.take (found.start - offset) ++ (replacement found.value).toList ++
      replaceFound replacement found.stop (text.drop (found.stop - offset)) others

def replaceAll {α : Type} (opening : Opening) (reader : Reader α) (replacement : α → String)
    (text : String) : String :=
  String.ofList (replaceFound replacement 0 text.toList (findAll opening reader text))

end WebShader.Text
