import WebShader.Text.Basic
import WebShader.Token.Basic

/-!
Contract: cutting shader source into tokens without losing a character.

Owns: one measuring function per lexical class, the order in which the classes
are tried, and `lex`. A measure answers how many characters at the front the
class takes, or nothing.

Does not own: any reading of the tokens.

Every character belongs to some token: what no class takes is a punctuator of
one character.
-/

namespace WebShader.Token

open Text

/-- Characters up to and with the end of a block comment, or all that are left. -/
def blockCommentLength : List Char → Nat
  | '*' :: '/' :: _ => 2
  | _ :: rest => blockCommentLength rest + 1
  | [] => 0

def comment? : List Char → Option Nat
  | '/' :: '/' :: rest => some (2 + runLength (· != '\n') rest)
  | '/' :: '*' :: rest => some (2 + blockCommentLength rest)
  | _ => none

/-- Characters after the opening quote. A backslash takes the next character
with it, and the line end closes a string that no quote closes. -/
def stringTailLength : List Char → Nat
  | '\\' :: _ :: rest => stringTailLength rest + 2
  | c :: rest =>
    if c == '"' then 1
    else if c == '\\' || c == '\n' then 0
    else stringTailLength rest + 1
  | [] => 0

def string? : List Char → Option Nat
  | '"' :: rest => some (1 + stringTailLength rest)
  | _ => none

def newline? : List Char → Option Nat
  | '\n' :: _ => some 1
  | '\r' :: '\n' :: _ => some 2
  | _ => none

def isInlineBlank (c : Char) : Bool :=
  c == ' ' || c == '\t' || c == '\x0c' || c == '\x0b'

/-- A backslash before a line end continues the line, so it counts as blank. -/
def blankLength : List Char → Nat
  | '\\' :: '\r' :: '\n' :: rest => blankLength rest + 3
  | '\\' :: '\n' :: rest => blankLength rest + 2
  | c :: rest => if isInlineBlank c then blankLength rest + 1 else 0
  | [] => 0

def whitespace? (text : List Char) : Option Nat :=
  let length := blankLength text
  if length == 0 then none else some length

/-- An exponent needs a digit after its mark and sign. -/
def exponentLength : List Char → Nat
  | mark :: rest =>
    if mark == 'e' || mark == 'E' then
      let signLength := match rest with
        | sign :: _ => if sign == '-' || sign == '+' then 1 else 0
        | [] => 0
      let digits := runLength isDigit (rest.drop signLength)
      if digits == 0 then 0 else 1 + signLength + digits
    else 0
  | [] => 0

def floatSuffixLength : List Char → Nat
  | 'l' :: 'f' :: _ => 2
  | 'L' :: 'F' :: _ => 2
  | c :: _ => if ['f', 'F', 'h', 'H'].contains c then 1 else 0
  | [] => 0

def unsignedSuffixLength : List Char → Nat
  | c :: _ => if c == 'u' || c == 'U' then 1 else 0
  | [] => 0

def hexNumber? : List Char → Option Nat
  | '0' :: mark :: rest =>
    let digits := runLength isHexDigit rest
    if (mark == 'x' || mark == 'X') && digits != 0 then
      some (2 + digits + unsignedSuffixLength (rest.drop digits))
    else none
  | _ => none

/-- Digits around a point, at least one of them. -/
def pointedLength (text : List Char) : Nat :=
  let whole := runLength isDigit text
  match text.drop whole with
  | '.' :: rest =>
    let fraction := runLength isDigit rest
    if whole == 0 && fraction == 0 then 0 else whole + 1 + fraction
  | _ => 0

def decimalNumber? (text : List Char) : Option Nat :=
  let whole := runLength isDigit text
  let pointed := pointedLength text
  let mantissa := if pointed == 0 then whole else pointed
  if mantissa == 0 then none
  else
    let exponent := exponentLength (text.drop mantissa)
    if pointed == 0 && exponent == 0 then
      some (whole + unsignedSuffixLength (text.drop whole))
    else
      some (mantissa + exponent + floatSuffixLength (text.drop (mantissa + exponent)))

def number? (text : List Char) : Option Nat :=
  (hexNumber? text).or (decimalNumber? text)

def ident? : List Char → Option Nat
  | c :: rest => if isNameStart c then some (1 + runLength Text.isWord rest) else none
  | [] => none

def longPunctuators : List String :=
  ["<<=", ">>=", "++", "--", "&&", "||", "^^", "==", "!=", "<=", ">=",
   "+=", "-=", "*=", "/=", "%=", "&=", "|=", "^=", "<<", ">>", "##"]

def longPunct? (text : List Char) : Option Nat :=
  (longPunctuators.find? fun punctuator => punctuator.toList.isPrefixOf text).map String.length

/-- The head of a directive: the hash, blanks within the line, and the name. -/
def directive? : List Char → Option Nat
  | '#' :: rest =>
    let gap := runLength (fun c => c == ' ' || c == '\t') rest
    (ident? (rest.drop gap)).map (1 + gap + ·)
  | _ => none

def lexicalClasses : List (TokenKind × (List Char → Option Nat)) :=
  [(.comment, comment?),
   (.string, string?),
   (.newline, newline?),
   (.whitespace, whitespace?),
   (.number, number?),
   (.ident, ident?),
   (.punct, longPunct?),
   (.directive, directive?)]

def frontToken (text : List Char) : TokenKind × Nat :=
  (lexicalClasses.findSome? fun lexicalClass =>
    (lexicalClass.2 text).map fun length => (lexicalClass.1, length)).getD (.punct, 1)

def lexFrom (offset : Nat) : List Char → List Token
  | [] => []
  | c :: rest =>
    let front := frontToken (c :: rest)
    let extra := front.2 - 1
    { kind := front.1, text := String.ofList (c :: rest.take extra), start := offset } ::
      lexFrom (offset + 1 + (rest.take extra).length) (rest.drop extra)
termination_by text => text.length
decreasing_by
  simp only [List.length_drop, List.length_cons]
  omega

def lex (source : String) : List Token :=
  lexFrom 0 source.toList

end WebShader.Token
