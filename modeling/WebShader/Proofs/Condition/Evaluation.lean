import Mathlib.Algebra.Ring.Nat
import WebShader.Proofs.Condition.Grammar

/-!
Contract: the parsers compute the values of trees.

Owns: the value of a tree, every part of which is evaluated; what each parser
does in terms of the parsers it calls; and the agreement of a parser with the
descent, for results and for trees below a number of nesting levels.
-/

namespace WebShader.Condition


variable {op : BinaryOp} {levels : Nat} {inner : Option Inner} {parser : Parser} {symbol : String}

/-- The value of a tree. Neither operators nor alternatives leave a part out. -/
def Tree.evaluate : Tree → Except Fault Value
  | .number text => numberValue text
  | .name _ => .ok (.int 0)
  | .group inside => inside.evaluate
  | .unary op inside => inside.evaluate.bind op.apply
  | .binary op left right =>
    left.evaluate.bind fun leftValue => right.evaluate.bind (op.apply leftValue)
  | .alternative test whenTrue whenFalse =>
    test.evaluate.bind fun tested =>
      whenTrue.evaluate.bind fun holding =>
        whenFalse.evaluate.map fun failing => if tested.isTrue then holding else failing

theorem bind_eq_ok {α β : Type} {first : Except Fault α} {next : α → Except Fault β} {result : β} :
    first.bind next = .ok result ↔ ∃ found, first = .ok found ∧ next found = .ok result := by
  cases first with
  | error fault => simp [Except.bind]
  | ok found => simp [Except.bind]

theorem map_eq_ok {α β : Type} {first : Except Fault α} {change : α → β} {result : β} :
    first.map change = .ok result ↔ ∃ found, first = .ok found ∧ change found = result := by
  cases first with
  | error fault => simp [Except.map]
  | ok found => simp [Except.map]

/-! What the parsers do, without the bounds on what is left. -/

def outcome {left : List Lexeme → Prop}
    (result : Except Fault (Value × { rest : List Lexeme // left rest })) :
    Except Fault (Value × List Lexeme) :=
  result.map fun found => (found.1, found.2.1)

def parse (parser : Parser) (lexemes : List Lexeme) : Except Fault (Value × List Lexeme) :=
  outcome (parser lexemes)

theorem parse_shorter {lexemes : List Lexeme} {found : Value × List Lexeme}
    (read : parse parser lexemes = .ok found) : found.2.length < lexemes.length := by
  rw [parse, outcome, map_eq_ok] at read
  grind

def behind (symbol : String) (lexemes : List Lexeme) : Except Fault (List Lexeme) :=
  (expect symbol lexemes).map (·.1)

theorem behind_eq_ok {lexemes rest : List Lexeme} :
    behind symbol lexemes = .ok rest ↔ lexemes = .symbol symbol :: rest := by
  rw [behind, map_eq_ok]
  constructor
  · rintro ⟨found, expected, rfl⟩
    rw [expect.eq_def] at expected
    split at expected
    next text rest => grind
    · cases expected
  · rintro rfl
    exact ⟨⟨rest, by simp⟩, by simp [expect], rfl⟩

section Equations

variable {operators : Level} {operand : Parser} {left : Value}

theorem chain_stop {lexemes : List Lexeme} (ends : operatorAt? operators lexemes = none) :
    outcome (chain operators operand left lexemes) = .ok (left, lexemes) := by
  cases lexemes with
  | nil => rw [chain]; rfl
  | cons lexeme following => rw [chain, ends]; rfl

theorem chain_extend (isOp : operators.lookup symbol = some op) (following : List Lexeme) :
    outcome (chain operators operand left (.symbol symbol :: following)) =
      (parse operand following).bind fun right =>
        (op.apply left right.1).bind fun value =>
          outcome (chain operators operand value right.2) := by
  have found : operatorAt? operators (.symbol symbol :: following) = some op := isOp
  rw [chain, found, parse]
  cases operand following with
  | error fault => rfl
  | ok right =>
    obtain ⟨rightValue, rest, shorter⟩ := right
    dsimp only
    show _ = (op.apply left rightValue).bind _
    cases op.apply left rightValue with
    | error fault => rfl
    | ok value =>
      show _ = outcome (chain operators operand value rest)
      dsimp only
      cases chain operators operand value rest <;> rfl

theorem parse_binary_cons (tighter : List Level) (lexemes : List Lexeme) :
    parse (binary operand (operators :: tighter)) lexemes =
      (parse (binary operand tighter) lexemes).bind fun found =>
        outcome (chain operators (binary operand tighter) found.1 found.2) := by
  rw [parse, binary, parse]
  dsimp only
  cases binary operand tighter lexemes with
  | error fault => rfl
  | ok found =>
    obtain ⟨left, rest, shorter⟩ := found
    show _ = outcome (chain operators (binary operand tighter) left rest)
    dsimp only
    cases chain operators (binary operand tighter) left rest <;> rfl

end Equations

section Equations

variable {deeper : Inner}

theorem parse_number (inner : Option Inner) (text : String) (rest : List Lexeme) :
    parse (operand inner) (.number text :: rest) = (numberValue text).map (·, rest) := by
  rw [parse, operand]
  cases numberValue text <;> rfl

theorem parse_name (inner : Option Inner) (text : String) (rest : List Lexeme) :
    parse (operand inner) (.name text :: rest) =
      if rest.head? = some (.symbol "(") then .error (.functionLike text)
      else .ok (.int 0, rest) := by
  rw [parse, operand]
  by_cases call : rest.head? = some (.symbol "(")
  · rw [if_pos call, if_pos (by simpa using call)]
    rfl
  · rw [if_neg call, if_neg (by simpa using call)]
    rfl

theorem parse_unary {op : UnaryOp} (isOp : unaryOp? symbol = some op) (rest : List Lexeme) :
    parse (operand (some deeper)) (.symbol symbol :: rest) =
      (parse deeper.operand rest).bind fun found =>
        (op.apply found.1).map (·, found.2) := by
  rw [parse, operand, isOp, parse]
  cases deeper.operand rest with
  | error fault => rfl
  | ok found =>
    obtain ⟨value, after, shorter⟩ := found
    show outcome ((op.apply value).map _) = (op.apply value).map _
    cases op.apply value <;> rfl

theorem parse_group (rest : List Lexeme) :
    parse (operand (some deeper)) (.symbol "(" :: rest) =
      (parse deeper.condition rest).bind fun found => (behind ")" found.2).map (found.1, ·) := by
  rw [parse, operand, parse]
  cases deeper.condition rest with
  | error fault => rfl
  | ok found =>
    obtain ⟨value, after, shorter⟩ := found
    show outcome ((expect ")" after).map _) = (behind ")" after).map _
    rw [behind]
    cases expect ")" after <;> rfl

theorem parse_symbol_none (symbol : String) (rest : List Lexeme) :
    ∃ fault, parse (operand none) (.symbol symbol :: rest) = .error fault := by
  rw [parse, operand.eq_def]
  dsimp only
  cases unaryOp? symbol with
  | some op => exact ⟨_, rfl⟩
  | none =>
    dsimp only
    split
    · exact ⟨_, rfl⟩
    · exact ⟨_, rfl⟩

theorem parse_symbol_other {inner : Option Inner} {symbol : String}
    (noOp : unaryOp? symbol = none) (noGroup : symbol ≠ "(") (rest : List Lexeme) :
    parse (operand inner) (.symbol symbol :: rest) = .error (.unexpected (some symbol)) := by
  rw [parse, operand.eq_def]
  dsimp only
  rw [noOp]
  rw [if_pos (by simpa using noGroup)]
  rfl

def branches (deeper : Inner) (test : Value) (lexemes : List Lexeme) :
    Except Fault (Value × List Lexeme) :=
  (parse deeper.condition lexemes).bind fun holding =>
    (behind ":" holding.2).bind fun failing =>
      (parse deeper.condition failing).map fun found =>
        (if test.isTrue then holding.1 else found.1, found.2)

section Alternative

variable {inner : Option Inner} {lexemes rest : List Lexeme} {test : Value}

theorem parse_conditional_error {fault : Fault}
    (failed : parse (binary (operand inner) binaryLevels) lexemes = .error fault) :
    parse (conditional inner) lexemes = .error fault := by
  rw [parse, conditional]
  rw [parse] at failed
  cases found : binary (operand inner) binaryLevels lexemes with
  | error other =>
    rw [found] at failed
    exact failed
  | ok tested =>
    rw [found] at failed
    cases failed

theorem parse_conditional_plain
    (tested : parse (binary (operand inner) binaryLevels) lexemes = .ok (test, rest))
    (noBranches : rest.head? ≠ some (.symbol "?")) :
    parse (conditional inner) lexemes = .ok (test, rest) := by
  obtain ⟨⟨value, after, shorter⟩, found, same⟩ := map_eq_ok.mp tested
  cases same
  rw [parse, conditional, found]
  dsimp only
  split
  · exact absurd rfl noBranches
  · rfl

theorem parse_conditional_tooDeep
    (tested : parse (binary (operand none) binaryLevels) lexemes = .ok (test, .symbol "?" :: rest)) :
    parse (conditional none) lexemes = .error .tooDeep := by
  obtain ⟨⟨value, after, shorter⟩, found, same⟩ := map_eq_ok.mp tested
  cases same
  rw [parse, conditional, found]
  rfl

theorem parse_conditional_branches
    (tested : parse (binary (operand (some deeper)) binaryLevels) lexemes =
      .ok (test, .symbol "?" :: rest)) :
    parse (conditional (some deeper)) lexemes = branches deeper test rest := by
  obtain ⟨⟨value, after, shorter⟩, found, same⟩ := map_eq_ok.mp tested
  cases same
  rw [parse, conditional, found]
  show outcome ((deeper.condition rest).bind _) = _
  rw [branches, parse]
  cases deeper.condition rest with
  | error fault => rfl
  | ok holding =>
    obtain ⟨holding, after, shorter⟩ := holding
    show outcome ((expect ":" after).bind _) = (behind ":" after).bind _
    rw [behind]
    cases expect ":" after with
    | error fault => rfl
    | ok failing =>
      show outcome ((deeper.condition failing.1).bind _) =
        (outcome (deeper.condition failing.1)).map _
      cases deeper.condition failing.1 <;> rfl

end Alternative

end Equations

/-! Results and trees. -/

/-- Some tree accounts for a result, with at most so many nesting levels. -/
def Explained (levels : Nat) (goal : Goal) (lexemes : List Lexeme)
    (found : Value × List Lexeme) : Prop :=
  ∃ tree, Descends goal lexemes tree found.2 ∧ tree.nesting ≤ levels ∧ tree.evaluate = .ok found.1

/-- A parser returns exactly the results that trees account for. -/
def Decides (levels : Nat) (start : Nonterminal) (parser : Parser) : Prop :=
  ∀ lexemes found, parse parser lexemes = .ok found ↔ Explained levels (.start start) lexemes found

/-- The parsers further in, below the last nesting level. -/
def Reaches : Nat → Option Inner → Prop
  | 0, inner => inner = none
  | levels + 1, inner =>
    ∃ deeper, inner = some deeper ∧ Decides levels .operand deeper.operand ∧
      Decides levels .conditional deeper.condition

/-- A chain keeps its left operand as a part of the whole. -/
theorem Descends.left_of_chain {operators : Level} {tighter : List Level} {left tree : Tree}
    {lexemes rest : List Lexeme}
    (descent : Descends (.chain operators tighter left) lexemes tree rest) :
    left.nesting ≤ tree.nesting ∧
      ∀ value, tree.evaluate = .ok value → ∃ leftValue, left.evaluate = .ok leftValue := by
  generalize goal : Goal.chain operators tighter left = chained at descent
  induction descent generalizing left with
  | stop => grind
  | extend _ _ _ _ ih =>
    cases goal
    obtain ⟨nested, evaluates⟩ := ih rfl
    refine ⟨Nat.le_trans (Nat.le_max_left _ _) nested, fun value evaluated => ?_⟩
    obtain ⟨extended, extendedValue⟩ := evaluates value evaluated
    obtain ⟨leftValue, leftEvaluated, -⟩ := bind_eq_ok.mp extendedValue
    exact ⟨leftValue, leftEvaluated⟩
  | _ => cases goal

theorem operatorAt?_eq_some {operators : Level} {lexemes : List Lexeme}
    (operator : operatorAt? operators lexemes = some op) :
    ∃ symbol following, lexemes = .symbol symbol :: following ∧
      operators.lookup symbol = some op := by
  rw [operatorAt?.eq_def] at operator
  grind

section Chain

variable {levels : Nat} {operators : Level} {tighter : List Level} {left : Tree} {leftValue : Value}
  {found : Value × List Lexeme}

/-- Where no operator follows, only the left operand accounts for a result. -/
theorem explained_stop (nested : left.nesting ≤ levels) (evaluated : left.evaluate = .ok leftValue)
    {lexemes : List Lexeme} (ends : operatorAt? operators lexemes = none) :
    Explained levels (.chain operators tighter left) lexemes found ↔ found = (leftValue, lexemes) := by
  constructor
  · rintro ⟨tree, descent, -, treeValue⟩
    cases descent with
    | stop => grind
    | extend isOp =>
      rw [operatorAt?, isOp] at ends
      cases ends
  · rintro rfl
    exact ⟨left, .stop ends, nested, evaluated⟩

/-- A right operand takes the left one further along the chain. -/
def Extends (levels : Nat) (tighter : List Level) (op : BinaryOp) (left right : Tree)
    (following middle : List Lexeme) (rightValue value : Value) : Prop :=
  Descends (.start (.levels tighter)) following right middle ∧ right.nesting ≤ levels ∧
    right.evaluate = .ok rightValue ∧ (Tree.binary op left right).nesting ≤ levels ∧
    (Tree.binary op left right).evaluate = .ok value

theorem explained_extend (evaluated : left.evaluate = .ok leftValue)
    (isOp : operators.lookup symbol = some op) {following : List Lexeme} :
    Explained levels (.chain operators tighter left) (.symbol symbol :: following) found ↔
      ∃ right middle rightValue value,
        Extends levels tighter op left right following middle rightValue value ∧
        op.apply leftValue rightValue = .ok value ∧
        Explained levels (.chain operators tighter (.binary op left right)) middle found := by
  constructor
  · rintro ⟨tree, descent, nested, treeValue⟩
    obtain ⟨result, final⟩ := found
    cases descent with
    | stop ends =>
      rw [operatorAt?, isOp] at ends
      cases ends
    | extend isOther rightDescent descent =>
      rename_i otherOp right middle
      obtain rfl : op = otherOp := Option.some.inj (isOp.symm.trans isOther)
      -- What the whole chain does, its extended left operand does as well.
      obtain ⟨leftNested, evaluates⟩ := descent.left_of_chain
      obtain ⟨value, extended⟩ := evaluates _ treeValue
      have extendedNested := Nat.le_trans leftNested nested
      obtain ⟨_, leftAgain, operands⟩ := bind_eq_ok.mp extended
      obtain rfl := Except.ok.inj (evaluated.symm.trans leftAgain)
      obtain ⟨rightValue, rightEvaluated, applied⟩ := bind_eq_ok.mp operands
      exact ⟨right, middle, rightValue, value,
        ⟨rightDescent, (Nat.max_le.mp extendedNested).2, rightEvaluated, extendedNested, extended⟩,
        applied, tree, descent, nested, treeValue⟩
  · rintro ⟨right, middle, rightValue, value, ⟨rightDescent, -⟩, -, tree, descent, nested, treeValue⟩
    exact ⟨tree, .extend isOp rightDescent descent, nested, treeValue⟩

theorem extends_of_parse (decides : Decides levels (.levels tighter) parser)
    (nested : left.nesting ≤ levels) (evaluated : left.evaluate = .ok leftValue)
    {following middle : List Lexeme} {rightValue value : Value}
    (read : parse parser following = .ok (rightValue, middle))
    (applied : op.apply leftValue rightValue = .ok value) :
    ∃ right, Extends levels tighter op left right following middle rightValue value := by
  obtain ⟨right, descent, rightNested, rightEvaluated⟩ := (decides following _).mp read
  have extended : (Tree.binary op left right).evaluate = .ok value := by
    rw [Tree.evaluate, evaluated]
    rw [rightEvaluated]
    exact applied
  exact ⟨right, descent, rightNested, rightEvaluated, Nat.max_le.mpr ⟨nested, rightNested⟩, extended⟩

theorem chain_explained (decides : Decides levels (.levels tighter) parser)
    (nested : left.nesting ≤ levels) (evaluated : left.evaluate = .ok leftValue)
    (lexemes : List Lexeme) :
    outcome (chain operators parser leftValue lexemes) = .ok found ↔
      Explained levels (.chain operators tighter left) lexemes found := by
  -- The right operand takes at least one lexeme, so the rest of the chain is shorter.
  obtain ⟨size, length⟩ : ∃ size, lexemes.length = size := ⟨_, rfl⟩
  induction size using Nat.strongRecOn generalizing lexemes left leftValue with
  | _ size ih =>
    cases operator : operatorAt? operators lexemes with
    | none =>
      rw [chain_stop operator, explained_stop nested evaluated operator, Except.ok.injEq]
      exact eq_comm
    | some op =>
      obtain ⟨symbol, following, rfl, isOp⟩ := operatorAt?_eq_some operator
      have shorter {right : Value × List Lexeme} (read : parse parser following = .ok right) :
          right.2.length < size := by
        have less := parse_shorter read
        rw [← length, List.length_cons]
        omega
      rw [chain_extend operator, explained_extend evaluated isOp]
      constructor
      · intro result
        obtain ⟨⟨rightValue, middle⟩, read, result⟩ := bind_eq_ok.mp result
        obtain ⟨value, applied, result⟩ := bind_eq_ok.mp result
        obtain ⟨right, extension⟩ := extends_of_parse decides nested evaluated read applied
        have ⟨_, _, _, extendedNested, extended⟩ := extension
        grind
      · rintro ⟨right, middle, rightValue, value, extension, applied, rest⟩
        obtain ⟨descent, rightNested, rightEvaluated, extendedNested, extended⟩ := extension
        have read : parse parser following = .ok (rightValue, middle) :=
          (decides following _).mpr ⟨right, descent, rightNested, rightEvaluated⟩
        have result := (ih _ (shorter read) extendedNested extended middle rfl).mpr rest
        exact bind_eq_ok.mpr ⟨_, read, bind_eq_ok.mpr ⟨value, applied, result⟩⟩

end Chain

theorem binary_decides (decides : Decides levels .operand parser) (precedence : List Level) :
    Decides levels (.levels precedence) (binary parser precedence) := by
  induction precedence with
  | nil =>
    intro lexemes found
    rw [binary, decides]
    constructor
    · rintro ⟨tree, descent, accounts⟩
      exact ⟨tree, .tightest descent, accounts⟩
    · rintro ⟨tree, descent, accounts⟩
      cases descent with
      | tightest inside => exact ⟨tree, inside, accounts⟩
  | cons operators tighter ih =>
    intro lexemes found
    rw [parse_binary_cons, bind_eq_ok]
    constructor
    · rintro ⟨⟨left, middle⟩, leftRead, result⟩
      obtain ⟨leftTree, leftDescent, nested, evaluated⟩ := (ih lexemes _).mp leftRead
      obtain ⟨tree, descent, accounts⟩ := (chain_explained ih nested evaluated middle).mp result
      exact ⟨tree, .level leftDescent descent, accounts⟩
    · rintro ⟨tree, descent, nested, evaluated⟩
      cases descent with
      | level leftDescent chained =>
        rename_i leftTree middle
        obtain ⟨leftNested, evaluates⟩ := chained.left_of_chain
        obtain ⟨left, leftValue⟩ := evaluates _ evaluated
        have leftBound := Nat.le_trans leftNested nested
        refine ⟨(left, middle),
          (ih lexemes _).mpr ⟨leftTree, leftDescent, leftBound, leftValue⟩, ?_⟩
        exact (chain_explained ih leftBound leftValue middle).mpr ⟨tree, chained, nested, evaluated⟩

theorem operand_symbol_explained (reaches : Reaches levels inner) (symbol : String)
    (rest : List Lexeme) (found : Value × List Lexeme) :
    parse (operand inner) (.symbol symbol :: rest) = .ok found ↔
      Explained levels (.start .operand) (.symbol symbol :: rest) found := by
  cases levels with
  | zero =>
    obtain rfl := reaches
    obtain ⟨fault, failed⟩ := parse_symbol_none symbol rest
    rw [failed]
    constructor
    · exact nofun
    · rintro ⟨tree, descent, nested, -⟩
      cases descent <;> simp [Tree.nesting] at nested
  | succ levels =>
    obtain ⟨deeper, rfl, operandDecides, conditionDecides⟩ := reaches
    cases operator : unaryOp? symbol with
    | some op =>
      rw [parse_unary operator, bind_eq_ok]
      constructor
      · rintro ⟨⟨value, after⟩, inside, result⟩
        obtain ⟨tree, descent, nested, evaluated⟩ := (operandDecides rest _).mp inside
        obtain ⟨result, applied, rfl⟩ := map_eq_ok.mp result
        refine ⟨.unary op tree, .unary operator descent, Nat.succ_le_succ nested, ?_⟩
        exact bind_eq_ok.mpr ⟨value, evaluated, applied⟩
      · rintro ⟨tree, descent, nested, evaluated⟩
        cases descent with
        | group => cases operator
        | unary isOp inside =>
          obtain rfl := Option.some.inj (operator.symm.trans isOp)
          obtain ⟨value, insideValue, applied⟩ := bind_eq_ok.mp evaluated
          refine ⟨(value, found.2), ?_, map_eq_ok.mpr ⟨_, applied, rfl⟩⟩
          exact (operandDecides rest _).mpr ⟨_, inside, Nat.le_of_succ_le_succ nested, insideValue⟩
    | none =>
      by_cases opening : symbol = "("
      · rw [opening, parse_group, bind_eq_ok]
        constructor
        · rintro ⟨⟨value, after⟩, inside, result⟩
          obtain ⟨tree, descent, nested, evaluated⟩ := (conditionDecides rest _).mp inside
          obtain ⟨final, closed, rfl⟩ := map_eq_ok.mp result
          obtain rfl := behind_eq_ok.mp closed
          exact ⟨.group tree, .group descent, Nat.succ_le_succ nested, evaluated⟩
        · rintro ⟨tree, descent, nested, evaluated⟩
          cases descent with
          | unary isOp => cases isOp
          | group inside =>
            refine ⟨(found.1, .symbol ")" :: found.2), ?_,
              map_eq_ok.mpr ⟨_, behind_eq_ok.mpr rfl, rfl⟩⟩
            exact (conditionDecides rest _).mpr
              ⟨_, inside, Nat.le_of_succ_le_succ nested, evaluated⟩
      · rw [parse_symbol_other operator opening]
        constructor
        · exact nofun
        · rintro ⟨tree, descent, -⟩
          cases descent with
          | group => exact absurd rfl opening
          | unary isOp => rw [isOp] at operator; cases operator

theorem operand_decides (reaches : Reaches levels inner) :
    Decides levels .operand (operand inner) := by
  intro lexemes found
  cases lexemes with
  | nil =>
    constructor
    · exact nofun
    · rintro ⟨tree, descent, -⟩
      cases descent
  | cons lexeme rest =>
    cases lexeme with
    | symbol symbol => exact operand_symbol_explained reaches symbol rest found
    | number text =>
      rw [parse_number, map_eq_ok]
      constructor
      · rintro ⟨value, evaluated, rfl⟩
        exact ⟨.number text, .number, Nat.zero_le _, evaluated⟩
      · rintro ⟨tree, descent, -, evaluated⟩
        cases descent with
        | number => exact ⟨found.1, evaluated, rfl⟩
    | name text =>
      rw [parse_name]
      constructor
      · intro result
        split at result
        · cases result
        next noCall =>
          cases result
          exact ⟨.name text, .name noCall, Nat.zero_le _, rfl⟩
      · rintro ⟨tree, descent, -, evaluated⟩
        cases descent with
        | name noCall =>
          rw [if_neg noCall, Except.ok.inj evaluated]

theorem branches_explained {deeper : Inner} (decides : Decides levels .conditional deeper.condition)
    (test : Value) (rest : List Lexeme) (found : Value × List Lexeme) :
    branches deeper test rest = .ok found ↔ ∃ whenTrue whenFalse failing holding other,
        Descends (.start .conditional) rest whenTrue (.symbol ":" :: failing) ∧
        whenTrue.nesting ≤ levels ∧ whenTrue.evaluate = .ok holding ∧
        Descends (.start .conditional) failing whenFalse found.2 ∧
        whenFalse.nesting ≤ levels ∧ whenFalse.evaluate = .ok other ∧
        (if test.isTrue then holding else other) = found.1 := by
  rw [branches, bind_eq_ok]
  constructor
  · rintro ⟨⟨holding, middle⟩, holdingRead, result⟩
    obtain ⟨failing, colon, result⟩ := bind_eq_ok.mp result
    obtain ⟨⟨other, final⟩, failingRead, rfl⟩ := map_eq_ok.mp result
    obtain rfl := behind_eq_ok.mp colon
    obtain ⟨whenTrue, trueDescent, trueNested, trueValue⟩ := (decides _ _).mp holdingRead
    obtain ⟨whenFalse, falseDescent, falseNested, falseValue⟩ := (decides _ _).mp failingRead
    grind
  · rintro ⟨whenTrue, whenFalse, failing, holding, other, trueDescent, trueNested, trueValue,
      falseDescent, falseNested, falseValue, chosen⟩
    have holdingRead := (decides rest (holding, .symbol ":" :: failing)).mpr
      ⟨whenTrue, trueDescent, trueNested, trueValue⟩
    have failingRead := (decides failing (other, found.2)).mpr
      ⟨whenFalse, falseDescent, falseNested, falseValue⟩
    refine ⟨_, holdingRead, bind_eq_ok.mpr ⟨failing, behind_eq_ok.mpr rfl, ?_⟩⟩
    exact map_eq_ok.mpr ⟨_, failingRead, by rw [chosen]⟩

theorem conditional_decides (reaches : Reaches levels inner) :
    Decides levels .conditional (conditional inner) := by
  intro lexemes found
  have tests := binary_decides (operand_decides reaches) binaryLevels lexemes
  constructor
  · intro result
    cases tested : parse (binary (operand inner) binaryLevels) lexemes with
    | error fault =>
      rw [parse_conditional_error tested] at result
      cases result
    | ok tested' =>
      obtain ⟨test, middle⟩ := tested'
      obtain ⟨testTree, testDescent, testNested, testValue⟩ := (tests _).mp tested
      by_cases question : middle.head? = some (.symbol "?")
      · obtain ⟨rest, rfl⟩ := List.head?_eq_some_iff.mp question
        cases levels with
        | zero =>
          obtain rfl := reaches
          rw [parse_conditional_tooDeep tested] at result
          cases result
        | succ levels =>
          obtain ⟨deeper, rfl, -, decides⟩ := reaches
          rw [parse_conditional_branches tested, branches_explained decides] at result
          obtain ⟨whenTrue, whenFalse, failing, holding, other, trueDescent, trueNested,
            trueValue, falseDescent, falseNested, falseValue, chosen⟩ := result
          refine ⟨.alternative testTree whenTrue whenFalse,
            .alternative testDescent trueDescent falseDescent, ?_, ?_⟩
          · rw [Tree.nesting]
            omega
          · rw [Tree.evaluate, testValue, trueValue, falseValue, ← chosen]
            rfl
      · rw [parse_conditional_plain tested question] at result
        cases result
        exact ⟨testTree, .plain testDescent question, testNested, testValue⟩
  · rintro ⟨tree, descent, nested, evaluated⟩
    cases descent with
    | plain inside noBranches =>
      exact parse_conditional_plain ((tests found).mpr ⟨tree, inside, nested, evaluated⟩) noBranches
    | alternative testDescent trueDescent falseDescent =>
      rename_i testTree rest whenTrue failing whenFalse
      obtain ⟨test, testValue, evaluated⟩ := bind_eq_ok.mp evaluated
      obtain ⟨holding, trueValue, evaluated⟩ := bind_eq_ok.mp evaluated
      obtain ⟨other, falseValue, chosen⟩ := map_eq_ok.mp evaluated
      rw [Tree.nesting] at nested
      have tested := (tests (test, .symbol "?" :: rest)).mpr
        ⟨testTree, testDescent, by omega, testValue⟩
      cases levels with
      | zero => omega
      | succ levels =>
        obtain ⟨deeper, rfl, -, decides⟩ := reaches
        rw [parse_conditional_branches tested, branches_explained decides]
        exact ⟨whenTrue, whenFalse, failing, holding, other, trueDescent, by omega, trueValue,
          falseDescent, by omega, falseValue, chosen⟩

theorem innerBelow_reaches (levels : Nat) : Reaches levels (innerBelow levels) := by
  induction levels with
  | zero => rfl
  | succ levels ih =>
    exact ⟨_, rfl, operand_decides ih, conditional_decides ih⟩

/-! The value of a whole list. -/

theorem valueOf_eq_ok {lexemes : List Lexeme} {value : Value} :
    valueOf lexemes = .ok value ↔
      ∃ tree, Derives .conditional lexemes tree ∧ tree.nesting ≤ maxNesting ∧
        tree.evaluate = .ok value := by
  have decides := conditional_decides (innerBelow_reaches maxNesting) lexemes (value, [])
  simp only [derives_iff_descends]
  rw [← show _ ↔ ∃ tree, _ from decides]
  cases lexemes with
  | nil =>
    constructor
    · intro result
      cases result
    · intro result
      exact absurd (parse_shorter result) (Nat.not_lt_zero _)
  | cons first others =>
    rw [valueOf, parse]
    cases conditional (innerBelow maxNesting) (first :: others) with
    | error fault => exact iff_of_false (by rintro ⟨⟩) (by rintro ⟨⟩)
    | ok found =>
      obtain ⟨other, rest, shorter⟩ := found
      cases rest with
      | nil =>
        show Except.ok other = .ok value ↔ Except.ok (other, []) = .ok (value, [])
        simp
      | cons lexeme rest => exact iff_of_false (by rintro ⟨⟩) (by rintro ⟨⟩)

end WebShader.Condition
