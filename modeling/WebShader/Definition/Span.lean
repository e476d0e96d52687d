import WebShader.Fault
import WebShader.SpanSet
import WebShader.Token.Query

/-!
Contract: where a source defines functions and structures.

Owns: the scan for definitions at file scope, and the spans that they cover.

Does not own: what becomes of a definition.

A function is a return type, a name, a parameter list in parentheses and a body
in braces; without a body it is a prototype and not found. Brackets are matched
over all tokens, and definitions are read from code tokens only, so a closing
bracket on a directive line is a fault.
-/

namespace WebShader

inductive DefinitionKind where
  | function
  | struct
  deriving DecidableEq, Repr

/-- A definition. `start` and `stop` enclose the whole, and the body lies
between `bodyStart` and `bodyStop`, inside the braces. -/
structure Definition where
  kind : DefinitionKind
  name : String
  returnType : String
  parameters : String
  start : Nat
  stop : Nat
  bodyStart : Nat
  bodyStop : Nat
  deriving DecidableEq, Repr

namespace Definition

def interfaceQualifiers : List String :=
  ["uniform", "in", "out", "inout", "varying", "attribute", "buffer", "shared"]

def storageQualifiers : List String :=
  ["const", "flat", "smooth", "noperspective", "centroid", "invariant", "precise"] ++
    precisionQualifiers ++ interfaceQualifiers

/-- The code after a position, if the position is one of code. -/
def after? (position : Nat) : List Token.Placed → Option (List Token.Placed)
  | [] => none
  | entry :: rest => if entry.position == position then some rest else after? position rest

theorem after?_length {position : Nat} {code rest : List Token.Placed}
    (found : after? position code = some rest) : rest.length < code.length := by
  induction code with
  | nil => simp [after?] at found
  | cons entry others ih =>
    simp only [after?] at found
    split at found
    · cases found
      simp
    · have := ih found
      simp only [List.length_cons]
      omega

/-- What the scan meets at a code token. -/
inductive Step (code : List Token.Placed) where
  /-- An opening bracket that nothing closes ends the scan. -/
  | unclosed
  /-- A definition, and the code after it. -/
  | found (definition : Definition)
      (rest : { rest : List Token.Placed // rest.length < code.length })
  /-- Other code, what follows it, and whether a statement starts there. -/
  | other (atStart : Bool) (rest : { rest : List Token.Placed // rest.length < code.length })

def textAt (code : List Token.Placed) (index : Nat) : String :=
  (code[index]?.map fun entry => entry.token.text).getD ""

def isIdentAt (code : List Token.Placed) (index : Nat) : Bool :=
  code[index]?.any fun entry => entry.token.isIdent

/-- A bracket's closing position and the code after it. -/
inductive Closing (code : List Token.Placed) where
  | unclosed
  | inDirective
  | closed (position : Nat) (rest : { rest : List Token.Placed // rest.length < code.length })

def closeAt (tokens : List Token) (code : List Token.Placed) (index : Nat) : Closing code :=
  match code[index]?.bind fun entry => Token.matching? tokens entry.position with
  | none => .unclosed
  | some position =>
    match found : after? position code with
    | none => .inDirective
    | some rest => .closed position ⟨rest, after?_length found⟩

def tokenStart (tokens : List Token) (position : Nat) : Nat :=
  (tokens[position]?.map Token.start).getD 0

def tokenStop (tokens : List Token) (position : Nat) : Nat :=
  (tokens[position]?.map Token.stop).getD 0

def opensStruct (code : List Token.Placed) : Bool :=
  (code.head?.any fun entry => entry.token.isWord "struct") && isIdentAt code 1 &&
    textAt code 2 == "\x7b"

/-- A structure runs to the first semicolon after its brace, or to the end of the code. -/
def structStop (fallback : Nat) (rest : List Token.Placed) : Nat :=
  match rest.find? fun entry => entry.token.text == ";" with
  | some entry => entry.token.stop
  | none => (rest.getLast?.map fun entry => entry.token.stop).getD fallback

def afterSemicolon (rest : List Token.Placed) : List Token.Placed :=
  (rest.dropWhile fun entry => entry.token.text != ";").drop 1

theorem afterSemicolon_length (rest : List Token.Placed) :
    (afterSemicolon rest).length ≤ rest.length := by
  have := (List.dropWhile_suffix
    (fun entry : Token.Placed => entry.token.text != ";") (l := rest)).length_le
  simp only [afterSemicolon, List.length_drop]
  omega

def structStep (tokens : List Token) (code : List Token.Placed) : Except Fault (Step code) :=
  match closeAt tokens code 2 with
  | .unclosed => .ok .unclosed
  | .inDirective => .error .definitionCloserInDirective
  | .closed close ⟨rest, shorter⟩ =>
    .ok (.found
      { kind := .struct
        name := textAt code 1
        returnType := ""
        parameters := ""
        start := (code.head?.map fun entry => entry.token.start).getD 0
        stop := structStop (tokenStop tokens close) rest
        bodyStart := (code[2]?.map fun entry => entry.token.stop).getD 0
        bodyStop := tokenStart tokens close }
      ⟨afterSemicolon rest, by have := afterSemicolon_length rest; omega⟩)

def precisionCount (code : List Token.Placed) : Nat :=
  (code.takeWhile fun entry => precisionQualifiers.contains entry.token.text).length

/-- Whether a function head opens the code after some precision qualifiers. -/
def opensFunction (code : List Token.Placed) : Bool :=
  let head := precisionCount code
  isIdentAt code head && isIdentAt code (head + 1) && textAt code (head + 2) == "(" &&
    !storageQualifiers.contains (textAt code head)

/-- Reads a function whose head opens the code; a prototype gives nothing. -/
def functionStep (tokens : List Token) (code : List Token.Placed) :
    Except Fault (Option (Step code)) :=
  let head := precisionCount code
  let openerPosition := (code[head + 2]?.map Token.Placed.position).getD 0
  match closeAt tokens code (head + 2) with
  | .unclosed => .ok (some .unclosed)
  | .inDirective => .error .definitionCloserInDirective
  | .closed paramsClose ⟨afterParams, shorter⟩ =>
    if textAt afterParams 0 != "\x7b" then .ok none
    else
      match closeAt tokens afterParams 0 with
      | .unclosed => .ok (some .unclosed)
      | .inDirective => .error .definitionCloserInDirective
      | .closed bodyClose ⟨rest, bodyShorter⟩ =>
        .ok (some (.found
          { kind := .function
            name := textAt code (head + 1)
            returnType := textAt code head
            parameters := Text.trim (Token.render
              ((tokens.drop (openerPosition + 1)).take (paramsClose - (openerPosition + 1))))
            start := (code.head?.map fun entry => entry.token.start).getD 0
            stop := tokenStop tokens bodyClose
            bodyStart := (afterParams[0]?.map fun entry => entry.token.stop).getD 0
            bodyStop := tokenStart tokens bodyClose }
          ⟨rest, by omega⟩))

/-- Code that opens no definition: a block in braces is skipped, and a semicolon
or a closing brace ends a statement. -/
def otherStep (tokens : List Token) (entry : Token.Placed) (rest : List Token.Placed) :
    Except Fault (Step (entry :: rest)) :=
  if entry.token.isPunct "\x7b" then
    match closeAt tokens (entry :: rest) 0 with
    | .unclosed => .ok .unclosed
    | .inDirective => .error .definitionCloserInDirective
    | .closed _ after => .ok (.other true after)
  else .ok (.other (entry.token.isPunctIn [";", "\x7d"]) ⟨rest, by simp⟩)

def step (tokens : List Token) (atStart : Bool) (entry : Token.Placed) (rest : List Token.Placed) :
    Except Fault (Step (entry :: rest)) :=
  if opensStruct (entry :: rest) then structStep tokens (entry :: rest)
  else if atStart && opensFunction (entry :: rest) then do
    match ← functionStep tokens (entry :: rest) with
    | some result => return result
    | none => otherStep tokens entry rest
  else otherStep tokens entry rest

def scanFrom (tokens : List Token) (atStart : Bool) :
    (code : List Token.Placed) → Except Fault (List Definition)
  | [] => .ok []
  | entry :: rest =>
    match step tokens atStart entry rest with
    | .error fault => .error fault
    | .ok .unclosed => .ok []
    | .ok (.found definition ⟨after, _shorter⟩) =>
      (scanFrom tokens true after).map (definition :: ·)
    | .ok (.other startsNext ⟨after, _shorter⟩) => scanFrom tokens startsNext after
termination_by code => code.length
decreasing_by
  · exact _shorter
  · exact _shorter

def scan (tokens : List Token) : Except Fault (List Definition) :=
  scanFrom tokens true (Token.code tokens)

def ofSource (source : String) : Except Fault (List Definition) :=
  scan (Token.lex source)

def spanSet (definitions : List Definition) : SpanSet :=
  SpanSet.ofList (definitions.map fun definition =>
    ((definition.start : Int), (definition.stop : Int)))

def function? (definitions : List Definition) (name : String) : Option Definition :=
  definitions.find? fun definition => definition.kind == .function && definition.name == name

end Definition

end WebShader
