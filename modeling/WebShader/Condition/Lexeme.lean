import WebShader.Condition.Value

/-!
Contract: the lexical units of a condition.

Owns: cutting an expression into numbers, names and operator symbols, and the
value that a number's text has.

Does not own: the grammar over them.

The suffix of a number is read and forgotten. Blanks separate and count for
nothing else.
-/

namespace WebShader.Condition

open Text

inductive Lexeme where
  | number (text : String)
  | name (text : String)
  | symbol (text : String)
  deriving DecidableEq, Repr

def Lexeme.text : Lexeme → String
  | .number text | .name text | .symbol text => text

def symbols : List String :=
  ["||", "&&", "==", "!=", "<=", ">=", "<<", ">>",
   "-", "+", "*", "/", "%", "<", ">", "!", "~", "&", "|", "^", "?", ":", "(", ")"]

/-- Length of an exponent: a mark, an optional sign and digits; zero without digits. -/
def exponentLength : List Char → Nat
  | mark :: rest =>
    if mark == 'e' || mark == 'E' then
      let signLength := match rest with
        | sign :: _ => if sign == '-' || sign == '+' then 1 else 0
        | [] => 0
      let digits := runLength isDigit (rest.drop signLength)
      if digits == 0 then 0 else 1 + signLength + digits
    else 0
  | [] => 0

/-- Length of a number without its suffix; zero when none stands here. An exponent
belongs to a number with a point only. -/
def numberLength (text : List Char) : Nat :=
  let hexDigits := match text with
    | '0' :: mark :: rest => if mark == 'x' || mark == 'X' then runLength isHexDigit rest else 0
    | _ => 0
  if hexDigits != 0 then 2 + hexDigits
  else
    let whole := runLength isDigit text
    match text.drop whole with
    | '.' :: rest =>
      let fraction := runLength isDigit rest
      if whole == 0 && fraction == 0 then 0
      else
        let mantissa := whole + 1 + fraction
        mantissa + exponentLength (text.drop mantissa)
    | _ => whole

def isSuffix (c : Char) : Bool :=
  ['u', 'U', 'l', 'L', 'f', 'F'].contains c

/-- A lexeme at the front with the number of characters it covers; blanks give no lexeme. -/
def frontLexeme? (text : List Char) : Option (Option Lexeme × Nat) :=
  let digits := numberLength text
  if digits != 0 then
    some (some (.number (String.ofList (text.take digits))),
      digits + runLength isSuffix (text.drop digits))
  else
    match text with
    | [] => none
    | c :: rest =>
      if isNameStart c then
        let word := c :: rest.takeWhile isWord
        some (some (.name (String.ofList word)), word.length)
      else
        match symbols.find? fun symbol => symbol.toList.isPrefixOf text with
        | some symbol => some (some (.symbol symbol), symbol.length)
        | none => if isBlank c then some (none, runLength isBlank text) else none

def lexemesFrom (expression : String) : List Char → Except Fault (List Lexeme)
  | [] => .ok []
  | c :: rest =>
    match frontLexeme? (c :: rest) with
    | none => .error (.unexpectedCharacter c expression)
    | some (lexeme, length) =>
      (lexemesFrom expression (rest.drop (length - 1))).map (lexeme.toList ++ ·)
termination_by text => text.length
decreasing_by
  simp only [List.length_drop, List.length_cons]
  omega

def lexemes (expression : String) : Except Fault (List Lexeme) :=
  lexemesFrom expression expression.toList

/-- The value of decimal digits of any script, if every character is one in the base. -/
def digitsInBase? (base : Nat) (text : List Char) : Option Nat :=
  (text.mapM fun c =>
    (digitValue? c).bind fun value => if value < base then some value else none).map
      (Decimal.valueInBase base)

/-- The value of a number's text. A leading zero marks base eight, `0x` base sixteen,
and a point a double. -/
def numberValue (text : String) : Except Fault Value :=
  match text.toList with
  | '0' :: 'x' :: digits => .ok (.int ((Decimal.natInBase? 16 digits).getD 0))
  | '0' :: 'X' :: digits => .ok (.int ((Decimal.natInBase? 16 digits).getD 0))
  | characters =>
    if characters.contains '.' then .ok (.float ((Decimal.readFloat? text).getD 0.0))
    else if 1 < characters.length && characters.head? == some '0' then
      match digitsInBase? 8 characters with
      | some value => .ok (.int value)
      | none => .error (.badOctal text)
    else if Decimal.maxIntegerDigits < characters.length then
      .error (.tooManyDigits characters.length)
    else .ok (.int ((digitsInBase? 10 characters).getD 0))

end WebShader.Condition
