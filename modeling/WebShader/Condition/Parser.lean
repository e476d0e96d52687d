import WebShader.Condition.Lexeme

/-!
Contract: the value of a condition.

Owns: the grammar, read by descent while the value is computed, so that the
first fault from the left is the one reported.

Does not own: macros; a name that reaches this module counts as zero.

Grammar, loosest first:

* an alternative `c ? a : b`, both of whose branches are always evaluated;
* ten levels of left-associative binary operators;
* unary operators;
* numbers, names, and conditions in parentheses.

A parser takes the lexemes and returns what is left, which is always less.
-/

namespace WebShader.Condition

/-- The lexemes left over after a parser took at least one. -/
abbrev Rest (lexemes : List Lexeme) := { rest : List Lexeme // rest.length < lexemes.length }

abbrev Parser := (lexemes : List Lexeme) → Except Fault (Value × Rest lexemes)

def binaryLevels : List (List (String × BinaryOp)) :=
  [[("||", .logicalOr)],
   [("&&", .logicalAnd)],
   [("|", .bitOr)],
   [("^", .bitXor)],
   [("&", .bitAnd)],
   [("==", .equal), ("!=", .notEqual)],
   [("<", .less), (">", .greater), ("<=", .lessEqual), (">=", .greaterEqual)],
   [("<<", .shiftLeft), (">>", .shiftRight)],
   [("+", .add), ("-", .subtract)],
   [("*", .multiply), ("/", .divide), ("%", .modulo)]]

def unaryOp? : String → Option UnaryOp
  | "!" => some .logicalNot
  | "~" => some .complement
  | "-" => some .negate
  | "+" => some .keep
  | _ => none

def headText? (lexemes : List Lexeme) : Option String :=
  lexemes.head?.map Lexeme.text

def expect (symbol : String) : (lexemes : List Lexeme) → Except Fault (Rest lexemes)
  | .symbol text :: rest =>
    if text == symbol then .ok ⟨rest, by simp⟩
    else .error (.missing symbol (some text))
  | lexemes => .error (.missing symbol (headText? lexemes))

def operatorAt? (operators : List (String × BinaryOp)) : List Lexeme → Option BinaryOp
  | .symbol text :: _ => operators.lookup text
  | _ => none

/-- Applies the operators of one level to a left operand, as long as one follows. -/
def chain (operators : List (String × BinaryOp)) (operand : Parser) (left : Value) :
    (lexemes : List Lexeme) →
      Except Fault (Value × { rest : List Lexeme // rest.length ≤ lexemes.length })
  | [] => .ok (left, ⟨[], Nat.le_refl _⟩)
  | lexeme :: following =>
    match operatorAt? operators (lexeme :: following) with
    | none => .ok (left, ⟨lexeme :: following, Nat.le_refl _⟩)
    | some op =>
      match operand following with
      | .error fault => .error fault
      | .ok (right, ⟨rest, shorter⟩) =>
        match op.apply left right with
        | .error fault => .error fault
        | .ok value =>
          match chain operators operand value rest with
          | .error fault => .error fault
          | .ok (result, ⟨final, bound⟩) =>
            .ok (result, ⟨final, by simp only [List.length_cons]; omega⟩)
termination_by lexemes => lexemes.length
decreasing_by
  simp only [List.length_cons]
  omega

def binary (operand : Parser) : List (List (String × BinaryOp)) → Parser
  | [] => operand
  | operators :: tighter => fun lexemes =>
    match binary operand tighter lexemes with
    | .error fault => .error fault
    | .ok (left, ⟨rest, shorter⟩) =>
      match chain operators (binary operand tighter) left rest with
      | .error fault => .error fault
      | .ok (value, ⟨final, bound⟩) => .ok (value, ⟨final, by omega⟩)

/-- The parsers one nesting level further in: an operand and a whole condition. -/
structure Inner where
  operand : Parser
  condition : Parser

/-- A number, a name, a unary operator with its operand, or a condition in
parentheses. The last two need a further nesting level. -/
def operand (inner : Option Inner) : Parser
  | [] => .error (.unexpected none)
  | .number text :: rest => (numberValue text).map fun value => (value, ⟨rest, by simp⟩)
  | .name text :: rest =>
    if rest.head? == some (.symbol "(") then .error (.functionLike text)
    else .ok (.int 0, ⟨rest, by simp⟩)
  | .symbol text :: rest =>
    match unaryOp? text with
    | some op =>
      match inner with
      | none => .error .tooDeep
      | some deeper =>
        match deeper.operand rest with
        | .error fault => .error fault
        | .ok (value, ⟨after, shorter⟩) =>
          (op.apply value).map fun result =>
            (result, ⟨after, by simp only [List.length_cons]; omega⟩)
    | none =>
      if text != "(" then .error (.unexpected (some text))
      else
        match inner with
        | none => .error .tooDeep
        | some deeper =>
          match deeper.condition rest with
          | .error fault => .error fault
          | .ok (value, ⟨after, shorter⟩) =>
            (expect ")" after).map fun final =>
              (value, ⟨final.1, by
                have := final.2
                simp only [List.length_cons]
                omega⟩)

/-- Binary operators, then an alternative if a question mark follows. -/
def conditional (inner : Option Inner) : Parser := fun lexemes =>
  match binary (operand inner) binaryLevels lexemes with
  | .error fault => .error fault
  | .ok (test, ⟨rest, shorter⟩) =>
    match rest, shorter with
    | .symbol "?" :: branches, shorter =>
      match inner with
      | none => .error .tooDeep
      | some deeper => do
          let (whenTrue, ⟨afterTrue, boundTrue⟩) ← deeper.condition branches
          let ⟨afterColon, boundColon⟩ ← expect ":" afterTrue
          let (whenFalse, ⟨final, boundFalse⟩) ← deeper.condition afterColon
          return (if test.isTrue then whenTrue else whenFalse,
            ⟨final, by simp only [List.length_cons] at shorter; omega⟩)
    | rest, shorter => .ok (test, ⟨rest, shorter⟩)

def innerBelow : Nat → Option Inner
  | 0 => none
  | levels + 1 =>
    let inner := innerBelow levels
    some { operand := operand inner, condition := conditional inner }

def valueOf (lexemes : List Lexeme) : Except Fault Value :=
  match lexemes with
  | [] => .error .empty
  | first :: others =>
    match conditional (innerBelow maxNesting) (first :: others) with
    | .error fault => .error fault
    | .ok (value, ⟨rest, _⟩) =>
      match headText? rest with
      | none => .ok value
      | some text => .error (.unexpected (some text))

def evaluate (expression : String) : Except Fault Value :=
  (lexemes expression).bind valueOf

def holds (expression : String) : Except Fault Bool :=
  (evaluate expression).map Value.isTrue

end WebShader.Condition
