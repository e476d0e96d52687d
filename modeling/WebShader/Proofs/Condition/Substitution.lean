import WebShader.Proofs.Condition.Integer

/-!
Contract: conditions whose names stand for expressions.

Owns: the theorem that evaluation decides the grammar; the integer of a tree
whose names have values of their own; the exchange of the names of a tree, and
of the lexemes it was read from, for operands; and that the exchanged tree
denotes what the names' values make of the first one.

A name is exchanged for an operand, so no operator reaches into what takes its
place, and the productions that derived the tree derive the exchanged one.
-/

namespace WebShader.Condition

open List

variable {start : Nonterminal} {tree : Tree} {lexemes : List Lexeme}

namespace Tree

def replace (image : String → Tree) : Tree → Tree
  | .number text => .number text
  | .name text => image text
  | .group inside => .group (inside.replace image)
  | .unary op inside => .unary op (inside.replace image)
  | .binary op left right => .binary op (left.replace image) (right.replace image)
  | .alternative test whenTrue whenFalse =>
    .alternative (test.replace image) (whenTrue.replace image) (whenFalse.replace image)

end Tree

theorem Derives.ne_nil (derived : Derives start lexemes tree) : lexemes ≠ [] := by
  induction derived with
  | tightest _ ih => exact ih
  | single _ ih => exact ih
  | plain _ ih => exact ih
  | _ => simp

/-- The lexemes in place of one, where names are exchanged. -/
def Lexeme.replace (image : String → List Lexeme) : Lexeme → List Lexeme
  | .name text => image text
  | other => [other]

/-- The productions derive a tree with operands in place of its names. -/
theorem Derives.replace {image : String → List Lexeme} {trees : String → Tree}
    (derived : Derives start lexemes tree)
    (operands : ∀ name, .name name ∈ lexemes → Derives .operand (image name) (trees name)) :
    Derives start (lexemes.flatMap (·.replace image)) (tree.replace trees) := by
  induction derived with
  | number => exact .number
  | name =>
    rw [flatMap_singleton]
    exact operands _ (by simp)
  | group _ ih =>
    have inside := ih fun name mem => operands name (by simp [mem])
    rw [flatMap_cons, flatMap_append]
    exact .group inside
  | unary isOp _ ih =>
    have inside := ih fun name mem => operands name (by simp [mem])
    exact .unary isOp inside
  | tightest _ ih => exact .tightest (ih operands)
  | single _ ih => exact .single (ih operands)
  | plain _ ih => exact .plain (ih operands)
  | binary _ isOp _ leftHypothesis rightHypothesis =>
    have left := leftHypothesis fun name mem => operands name (by simp [mem])
    have right := rightHypothesis fun name mem => operands name (by simp [mem])
    rw [flatMap_append]
    exact .binary left isOp right
  | alternative _ _ _ testHypothesis trueHypothesis falseHypothesis =>
    have test := testHypothesis fun name mem => operands name (by simp [mem])
    have whenTrue := trueHypothesis fun name mem => operands name (by simp [mem])
    have whenFalse := falseHypothesis fun name mem => operands name (by simp [mem])
    rw [flatMap_append, flatMap_cons, flatMap_append]
    exact .alternative test whenTrue whenFalse

end WebShader.Condition

namespace WebShader.Condition

variable {expr : String}

/-- The lexemes of an expression have a tree within the nesting limit, and the tree
denotes an integer. -/
def Denotes (reach : Nat → Bool) (expression : String) (number : Int) : Prop :=
  ∃ found tree, lexemes expression = .ok found ∧ Derives .conditional found tree ∧
    tree.nesting ≤ maxNesting ∧ tree.integer? reach = some number

/-- Whether a lexeme is no number with a point. -/
def withoutPoint : Lexeme → Bool
  | .number text => !text.toList.contains '.'
  | _ => true

/-- Every number of an expression is an integer. -/
def OnlyIntegers (expression : String) : Prop :=
  ∀ found, lexemes expression = .ok found → found.all withoutPoint = true

theorem evaluate_eq_ok (integers : OnlyIntegers expr) (value : Value) :
    evaluate expr = .ok value ↔
      ∃ number, Denotes withinShift expr number ∧ value = .int number := by
  have agree {found : List Lexeme} {tree : Tree} (taken : lexemes expr = .ok found)
      (derived : Derives .conditional found tree) :
      Agree tree.evaluate (tree.integer? withinShift) := by
    refine Tree.agree_evaluate fun text mem => ?_
    have number := derived.numbers_mem text mem
    have plain := List.all_eq_true.mp (integers found taken) _ number
    exact integerText_of_mem taken number (by simpa [withoutPoint] using plain)
  rw [evaluate, bind_eq_ok]
  constructor
  · rintro ⟨found, taken, valued⟩
    obtain ⟨tree, derived, nested, evaluated⟩ := valueOf_eq_ok.mp valued
    obtain ⟨number, known, rfl⟩ := (agree taken derived value).mp evaluated
    exact ⟨number, ⟨found, tree, taken, derived, nested, known⟩, rfl⟩
  · rintro ⟨number, ⟨found, tree, taken, derived, nested, known⟩, rfl⟩
    have evaluated := (agree taken derived (.int number)).mpr ⟨number, known, rfl⟩
    exact ⟨found, taken, valueOf_eq_ok.mpr ⟨tree, derived, nested, evaluated⟩⟩

theorem evaluate_eq_error (integers : OnlyIntegers expr)
    (nothing : ¬∃ number, Denotes withinShift expr number) :
    ∃ fault, evaluate expr = .error fault := by
  cases valued : evaluate expr with
  | error fault => exact ⟨fault, rfl⟩
  | ok value => grind [evaluate_eq_ok]

theorem holds_eq_error {fault : Fault}
    (failed : evaluate expr = .error fault) : holds expr = .error fault := by
  rw [holds, failed]
  rfl

end WebShader.Condition
