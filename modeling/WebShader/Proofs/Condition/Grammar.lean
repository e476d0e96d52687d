import WebShader.Condition.Parser

/-!
Contract: the grammar of conditions and its trees.

Owns: the productions, with the left recursion that makes binary operators
group to the left; the descent that reads a tree from the left without looking
back; and the agreement of the two, from which a list of lexemes has at most
one tree.

The levels of binary operators are a parameter. What the descent needs of them
is `Orderly`: no symbol stands on two levels or serves as a bracket.
-/

namespace WebShader.Condition

open List

variable {op : BinaryOp} {rest taken : List Lexeme} {symbol : String} {lexemes : List Lexeme}

/-- The operators of one level of precedence. -/
abbrev Level := List (String × BinaryOp)

inductive Tree where
  | number (text : String)
  | name (text : String)
  | group (inside : Tree)
  | unary (op : UnaryOp) (inside : Tree)
  | binary (op : BinaryOp) (left right : Tree)
  | alternative (test whenTrue whenFalse : Tree)
  deriving DecidableEq, Repr

namespace Tree

def nesting : Tree → Nat
  | .number _ | .name _ => 0
  | .group inside | .unary _ inside => inside.nesting + 1
  | .binary _ left right => max left.nesting right.nesting
  | .alternative test whenTrue whenFalse =>
    max test.nesting (max whenTrue.nesting whenFalse.nesting + 1)

def numbers : Tree → List String
  | .number text => [text]
  | .name _ => []
  | .group inside | .unary _ inside => inside.numbers
  | .binary _ left right => left.numbers ++ right.numbers
  | .alternative test whenTrue whenFalse =>
    test.numbers ++ whenTrue.numbers ++ whenFalse.numbers

end Tree

inductive Nonterminal where
  | conditional
  /-- Binary operators of these levels, the loosest first. -/
  | levels (levels : List Level)
  | operand

/-- The productions: a list of lexemes and a tree of it. -/
inductive Derives : Nonterminal → List Lexeme → Tree → Prop
  | number {text} : Derives .operand [.number text] (.number text)
  | name {text} : Derives .operand [.name text] (.name text)
  | group {lexemes tree} :
      Derives .conditional lexemes tree →
      Derives .operand (.symbol "(" :: (lexemes ++ [.symbol ")"])) (.group tree)
  | unary {symbol op lexemes tree} :
      unaryOp? symbol = some op → Derives .operand lexemes tree →
      Derives .operand (.symbol symbol :: lexemes) (.unary op tree)
  | tightest {lexemes tree} :
      Derives .operand lexemes tree → Derives (.levels []) lexemes tree
  | single {operators tighter lexemes tree} :
      Derives (.levels tighter) lexemes tree →
      Derives (.levels (operators :: tighter)) lexemes tree
  | binary {operators tighter before after left right symbol op} :
      Derives (.levels (operators :: tighter)) before left →
      operators.lookup symbol = some op →
      Derives (.levels tighter) after right →
      Derives (.levels (operators :: tighter)) (before ++ .symbol symbol :: after)
        (.binary op left right)
  | plain {lexemes tree} :
      Derives (.levels binaryLevels) lexemes tree → Derives .conditional lexemes tree
  | alternative {testing holding failing test whenTrue whenFalse} :
      Derives (.levels binaryLevels) testing test →
      Derives .conditional holding whenTrue →
      Derives .conditional failing whenFalse →
      Derives .conditional (testing ++ .symbol "?" :: (holding ++ .symbol ":" :: failing))
        (.alternative test whenTrue whenFalse)

theorem Derives.numbers_mem {start : Nonterminal} {tree : Tree}
    (derived : Derives start lexemes tree) : ∀ text ∈ tree.numbers, .number text ∈ lexemes := by
  induction derived with
  | number => simp [Tree.numbers]
  | name => simp [Tree.numbers]
  | group _ ih =>
    intro text found
    simp [ih text found]
  | unary _ _ ih =>
    intro text found
    simp [ih text found]
  | tightest _ ih => exact ih
  | single _ ih => exact ih
  | plain _ ih => exact ih
  | binary _ _ _ leftHypothesis rightHypothesis =>
    intro text found
    rcases mem_append.mp found with left | right
    · simp [leftHypothesis text left]
    · simp [rightHypothesis text right]
  | alternative _ _ _ testHypothesis trueHypothesis falseHypothesis => grind [Tree.numbers]

/-! The descent. -/

/-- What a descent looks for. A chain goes on from a left operand that was read. -/
inductive Goal where
  | start (start : Nonterminal)
  | chain (operators : Level) (tighter : List Level) (left : Tree)

/-- Reading from the left: the lexemes, the tree and the lexemes left over. A chain and an
alternative take as much as they can. -/
inductive Descends : Goal → List Lexeme → Tree → List Lexeme → Prop
  | number {text rest} :
      Descends (.start .operand) (.number text :: rest) (.number text) rest
  | name {text rest} :
      rest.head? ≠ some (.symbol "(") →
      Descends (.start .operand) (.name text :: rest) (.name text) rest
  | group {lexemes tree rest} :
      Descends (.start .conditional) lexemes tree (.symbol ")" :: rest) →
      Descends (.start .operand) (.symbol "(" :: lexemes) (.group tree) rest
  | unary {symbol op lexemes tree rest} :
      unaryOp? symbol = some op → Descends (.start .operand) lexemes tree rest →
      Descends (.start .operand) (.symbol symbol :: lexemes) (.unary op tree) rest
  | tightest {lexemes tree rest} :
      Descends (.start .operand) lexemes tree rest →
      Descends (.start (.levels [])) lexemes tree rest
  | level {operators tighter lexemes left middle tree rest} :
      Descends (.start (.levels tighter)) lexemes left middle →
      Descends (.chain operators tighter left) middle tree rest →
      Descends (.start (.levels (operators :: tighter))) lexemes tree rest
  | stop {operators tighter left rest} :
      operatorAt? operators rest = none →
      Descends (.chain operators tighter left) rest left rest
  | extend {operators tighter left symbol op lexemes right middle tree rest} :
      operators.lookup symbol = some op →
      Descends (.start (.levels tighter)) lexemes right middle →
      Descends (.chain operators tighter (.binary op left right)) middle tree rest →
      Descends (.chain operators tighter left) (.symbol symbol :: lexemes) tree rest
  | plain {lexemes tree rest} :
      Descends (.start (.levels binaryLevels)) lexemes tree rest →
      rest.head? ≠ some (.symbol "?") →
      Descends (.start .conditional) lexemes tree rest
  | alternative {lexemes test branches whenTrue failing whenFalse rest} :
      Descends (.start (.levels binaryLevels)) lexemes test (.symbol "?" :: branches) →
      Descends (.start .conditional) branches whenTrue (.symbol ":" :: failing) →
      Descends (.start .conditional) failing whenFalse rest →
      Descends (.start .conditional) lexemes (.alternative test whenTrue whenFalse) rest

/-- The lexemes decide every step of a descent. -/
theorem Descends.unique {goal : Goal} {tree : Tree}
    (descent : Descends goal lexemes tree rest) {otherTree : Tree} {otherRest : List Lexeme}
    (other : Descends goal lexemes otherTree otherRest) : otherTree = tree ∧ otherRest = rest := by
  induction descent generalizing otherTree otherRest with
  | number =>
    cases other with
    | number => exact ⟨rfl, rfl⟩
  | name =>
    cases other with
    | name => exact ⟨rfl, rfl⟩
  | group _ ih =>
    cases other with
    | group inside => grind
    | unary isOp => cases isOp
  | unary isOp _ ih =>
    cases other with
    | group => cases isOp
    | unary otherOp inside => grind
  | tightest _ ih =>
    cases other with
    | tightest inside => exact ih inside
  | level _ _ firstHypothesis chainHypothesis =>
    cases other with
    | level first chained => grind
  | stop ends =>
    cases other with
    | stop => exact ⟨rfl, rfl⟩
    | extend isOp => rw [operatorAt?, isOp] at ends; cases ends
  | extend isOp _ _ rightHypothesis chainHypothesis =>
    cases other with
    | stop ends => rw [operatorAt?, isOp] at ends; cases ends
    | extend otherOp right chained => grind
  | plain _ noBranches ih =>
    cases other with
    | plain inside => exact ih inside
    | alternative test => grind
  | alternative _ _ _ testHypothesis trueHypothesis falseHypothesis =>
    cases other with
    | plain inside noBranches => grind
    | alternative test holding failing => grind

/-! What a descent reads is derived. -/

/-- What the lexemes taken for a goal amount to. Those of a chain continue its left operand. -/
def Yields : Goal → List Lexeme → Tree → Prop
  | .start start, taken, tree => Derives start taken tree
  | .chain operators tighter left, taken, tree =>
    ∀ before, Derives (.levels (operators :: tighter)) before left →
      Derives (.levels (operators :: tighter)) (before ++ taken) tree

theorem Descends.yields {goal : Goal} {tree : Tree} (descent : Descends goal lexemes tree rest) :
    ∃ taken, lexemes = taken ++ rest ∧ Yields goal taken tree := by
  induction descent with
  | number => exact ⟨_, rfl, .number⟩
  | name => exact ⟨_, rfl, .name⟩
  | group _ ih =>
    obtain ⟨taken, rfl, derived⟩ := ih
    exact ⟨_, by simp, .group derived⟩
  | unary isOp _ ih =>
    obtain ⟨taken, rfl, derived⟩ := ih
    exact ⟨_ :: taken, rfl, .unary isOp derived⟩
  | tightest _ ih =>
    obtain ⟨taken, rfl, derived⟩ := ih
    exact ⟨taken, rfl, .tightest derived⟩
  | level _ _ firstHypothesis chainHypothesis =>
    obtain ⟨first, rfl, derived⟩ := firstHypothesis
    obtain ⟨chained, rfl, continues⟩ := chainHypothesis
    exact ⟨first ++ chained, by simp, continues first (.single derived)⟩
  | stop =>
    refine ⟨[], rfl, fun before derived => ?_⟩
    rwa [append_nil]
  | extend isOp _ _ rightHypothesis chainHypothesis =>
    obtain ⟨right, rfl, derived⟩ := rightHypothesis
    obtain ⟨chained, rfl, continues⟩ := chainHypothesis
    refine ⟨.symbol _ :: right ++ chained, congrArg (_ :: ·) (by simp), ?_⟩
    intro before leftDerived
    have extended := continues _ (.binary leftDerived isOp derived)
    rwa [append_assoc] at extended
  | plain _ _ ih =>
    obtain ⟨taken, rfl, derived⟩ := ih
    exact ⟨taken, rfl, .plain derived⟩
  | alternative _ _ _ testHypothesis trueHypothesis falseHypothesis =>
    obtain ⟨testing, rfl, testDerived⟩ := testHypothesis
    obtain ⟨holding, rfl, trueDerived⟩ := trueHypothesis
    obtain ⟨failing, rfl, falseDerived⟩ := falseHypothesis
    exact ⟨_, by simp, .alternative testDerived trueDerived falseDerived⟩

/-! What is derived is read, as far as nothing behind it would be taken too. -/

/-- No symbol of a level stands on a tighter one or serves another purpose. -/
def Orderly : List Level → Prop
  | [] => True
  | operators :: tighter =>
    (∀ entry ∈ operators, ["(", ")", "?", ":"].contains entry.1 = false ∧
      ∀ others ∈ tighter, others.lookup entry.1 = none) ∧ Orderly tighter

theorem orderly_binaryLevels : Orderly binaryLevels := by
  simp only [Orderly, binaryLevels]
  decide

/-- Lexemes that no operand and no operator of the levels goes on with. -/
def Closed (levels : List Level) (rest : List Lexeme) : Prop :=
  rest.head? ≠ some (.symbol "(") ∧ ∀ operators ∈ levels, operatorAt? operators rest = none

theorem mem_of_lookup {operators : Level} (found : operators.lookup symbol = some op) :
    (symbol, op) ∈ operators := by
  obtain ⟨before, after, rfl, -⟩ := lookup_eq_some_iff.mp found
  simp

theorem Orderly.closed_operator {operators : Level} {tighter : List Level}
    (orderly : Orderly (operators :: tighter)) (isOp : operators.lookup symbol = some op)
    (rest : List Lexeme) : Closed tighter (.symbol symbol :: rest) := by
  obtain ⟨noBracket, elsewhere⟩ := orderly.1 _ (mem_of_lookup isOp)
  refine ⟨?_, elsewhere⟩
  grind

theorem Orderly.closed_symbol {levels : List Level} (orderly : Orderly levels) {symbol : String}
    (serves : ["(", ")", "?", ":"].contains symbol) (closes : symbol ≠ "(")
    (rest : List Lexeme) : Closed levels (.symbol symbol :: rest) := by
  refine ⟨by simpa using closes, ?_⟩
  induction levels with
  | nil => exact nofun
  | cons operators tighter ih =>
    intro level mem
    rcases mem_cons.mp mem with rfl | later
    · cases found : level.lookup symbol with
      | none => exact found
      | some op =>
        have noBracket := (orderly.1 _ (mem_of_lookup found)).1
        rw [serves] at noBracket
        cases noBracket
    · exact ih orderly.2 level later

/-- What a derivation is worth to the descent. A level leaves open how its chain goes on,
which is what the left recursion of its production needs. -/
def Read : Nonterminal → List Lexeme → Tree → Prop
  | .operand, taken, tree =>
    ∀ rest, rest.head? ≠ some (.symbol "(") → Descends (.start .operand) (taken ++ rest) tree rest
  | .levels [], taken, tree =>
    ∀ rest, Closed [] rest → Descends (.start (.levels [])) (taken ++ rest) tree rest
  | .levels (operators :: tighter), taken, tree =>
    Orderly (operators :: tighter) → ∀ middle whole rest, Closed tighter middle →
      Descends (.chain operators tighter tree) middle whole rest →
      Descends (.start (.levels (operators :: tighter))) (taken ++ middle) whole rest
  | .conditional, taken, tree =>
    ∀ rest, Closed binaryLevels rest → rest.head? ≠ some (.symbol "?") →
      Descends (.start .conditional) (taken ++ rest) tree rest

theorem Read.levels {levels : List Level} {tree : Tree} (read : Read (.levels levels) taken tree)
    (orderly : Orderly levels) (closed : Closed levels rest) :
    Descends (.start (.levels levels)) (taken ++ rest) tree rest := by
  cases levels with
  | nil => exact read rest closed
  | cons operators tighter =>
    have tighterClosed : Closed tighter rest := ⟨closed.1, (forall_mem_cons.mp closed.2).2⟩
    exact read orderly rest tree rest tighterClosed (.stop (closed.2 _ mem_cons_self))

theorem Derives.read {start : Nonterminal} {tree : Tree} (derived : Derives start taken tree) :
    Read start taken tree := by
  induction derived with
  | number => exact fun rest _ => .number
  | name => exact fun rest noCall => .name noCall
  | group _ ih =>
    intro rest _
    have inside := ih (.symbol ")" :: rest)
      (orderly_binaryLevels.closed_symbol (by decide) (by decide) rest) (by simp)
    rw [cons_append, append_assoc]
    exact .group inside
  | unary isOp _ ih =>
    exact fun rest noCall => .unary isOp (ih rest noCall)
  | tightest _ ih =>
    exact fun rest closed => .tightest (ih rest closed.1)
  | single _ ih =>
    intro orderly middle whole rest closed chained
    exact .level (ih.levels orderly.2 closed) chained
  | binary _ isOp _ leftHypothesis rightHypothesis =>
    intro orderly middle whole rest closed chained
    rw [append_assoc]
    refine leftHypothesis orderly _ whole rest (orderly.closed_operator isOp _) ?_
    exact .extend isOp (rightHypothesis.levels orderly.2 closed) chained
  | plain _ ih =>
    exact fun rest closed noBranches =>
      .plain (ih.levels orderly_binaryLevels closed) noBranches
  | alternative _ _ _ testHypothesis trueHypothesis falseHypothesis =>
    intro rest closed noBranches
    have question := fun branches =>
      @Orderly.closed_symbol _ orderly_binaryLevels "?" (by decide) (by decide) branches
    have colon := fun failing =>
      @Orderly.closed_symbol _ orderly_binaryLevels ":" (by decide) (by decide) failing
    rw [append_assoc, cons_append, append_assoc]
    exact .alternative (testHypothesis.levels orderly_binaryLevels (question _))
      (trueHypothesis _ (colon _) (by simp)) (falseHypothesis rest closed noBranches)

/-! The two agree on whole lists. -/

theorem closed_nil (levels : List Level) : Closed levels [] :=
  ⟨nofun, fun _ _ => rfl⟩

theorem derives_iff_descends {tree : Tree} :
    Derives .conditional lexemes tree ↔ Descends (.start .conditional) lexemes tree [] := by
  constructor
  · intro derived
    have descent := derived.read [] (closed_nil _) nofun
    rwa [append_nil] at descent
  · intro descent
    obtain ⟨taken, rfl, derived⟩ := descent.yields
    rwa [append_nil]

theorem Derives.tree_unique {tree other : Tree}
    (derived : Derives .conditional lexemes tree) (again : Derives .conditional lexemes other) :
    other = tree :=
  ((derives_iff_descends.mp derived).unique (derives_iff_descends.mp again)).1

end WebShader.Condition
