import Mathlib.Data.Int.Bitwise
import WebShader.Proofs.Condition.Evaluation
import WebShader.Proofs.Condition.Literal

/-!
Contract: conditions over unbounded integers.

Owns: what the operators mean on integers, the number that a tree denotes, and
that a tree of integers has exactly this value.

How far a number may be shifted to the left is a parameter, so that the meaning
without any bound stands beside the one that is computed.
-/

namespace WebShader.Condition

open BinaryOp


variable {count result value : Int} {integer : Option Int} {outcome : Except Fault Value}

def truth (holds : Prop) [Decidable holds] : Int :=
  if holds then 1 else 0

def UnaryOp.onInteger : UnaryOp → Int → Int
  | .logicalNot, value => truth (value = 0)
  | .complement, value => -value - 1
  | .negate, value => -value
  | .keep, value => value

/-- The result of an operator, if there is one. `reach` tells by how many places a number
other than zero may be shifted to the left. -/
def BinaryOp.onIntegers? (reach : Nat → Bool) (op : BinaryOp) (left right : Int) : Option Int :=
  match op with
  | .logicalOr => some (truth (left ≠ 0 ∨ right ≠ 0))
  | .logicalAnd => some (truth (left ≠ 0 ∧ right ≠ 0))
  | .bitOr => some (left.lor right)
  | .bitXor => some (left.xor right)
  | .bitAnd => some (left.land right)
  | .equal => some (truth (left = right))
  | .notEqual => some (truth (left ≠ right))
  | .less => some (truth (left < right))
  | .greater => some (truth (right < left))
  | .lessEqual => some (truth (left ≤ right))
  | .greaterEqual => some (truth (right ≤ left))
  | .shiftLeft =>
    if 0 ≤ right ∧ (left = 0 ∨ reach right.toNat) then some (left * 2 ^ right.toNat) else none
  | .shiftRight => if 0 ≤ right then some (left / 2 ^ right.toNat) else none
  | .add => some (left + right)
  | .subtract => some (left - right)
  | .multiply => some (left * right)
  | .divide => if right = 0 then none else some (left.tdiv right)
  | .modulo => if right = 0 then none else some (left.tmod right)

/-- The integer that a tree denotes. Every part must denote one, whether it decides the
result or not. -/
def Tree.integer? (reach : Nat → Bool) : Tree → Option Int
  | .number text => (literalValue? text.toList).map Int.ofNat
  | .name _ => some 0
  | .group inside => inside.integer? reach
  | .unary op inside => (inside.integer? reach).map op.onInteger
  | .binary op left right =>
    (left.integer? reach).bind fun leftValue =>
      (right.integer? reach).bind (op.onIntegers? reach leftValue)
  | .alternative test whenTrue whenFalse =>
    (test.integer? reach).bind fun tested =>
      (whenTrue.integer? reach).bind fun holding =>
        (whenFalse.integer? reach).map fun failing => if tested ≠ 0 then holding else failing

def withinShift (count : Nat) : Bool :=
  decide (count < maxShift)

/-! Bits. -/

theorem bitsWithout_eq (value removed : Nat) : bitsWithout value removed = value.ldiff removed := by
  refine Nat.eq_of_testBit_eq fun pos => ?_
  grind [bitsWithout, Nat.testBit_ldiff]

theorem bitAnd_eq (left right : Int) : bitAnd left right = left.land right := by
  cases left <;> cases right <;> simp [bitAnd, Int.land, bitsWithout_eq]

theorem bitOr_eq (left right : Int) : bitOr left right = left.lor right := by
  cases left <;> cases right <;> simp [bitOr, Int.lor, bitsWithout_eq]

theorem bitXor_eq (left right : Int) : bitXor left right = left.xor right := by
  cases left <;> rfl

theorem complement_eq (value : Int) : complement value = -value - 1 := by
  cases value with
  | ofNat value => simp only [complement, Int.ofNat_eq_natCast]; omega
  | negSucc value => simp only [complement, Int.ofNat_eq_natCast]; omega

/-! Shifts. -/

theorem ediv_of_natAbs_lt {divisor : Nat} (small : value.natAbs < divisor) :
    value / (divisor : Int) = if value < 0 then -1 else 0 := by
  split
  · have unique := (Int.ediv_emod_unique (a := value) (r := value + divisor) (q := -1)
      (show (0 : Int) < divisor by omega)).mpr ⟨by omega, by omega, by omega⟩
    exact unique.1
  · exact Int.ediv_eq_zero_of_lt (by omega) (by omega)

theorem shiftRight_eq (natural : 0 ≤ count) :
    shiftRight value count = .ok (value / 2 ^ count.toNat) := by
  have power (places : Nat) : ((Nat.pow 2 places : Nat) : Int) = 2 ^ places := by simp
  rw [shiftRight, if_neg (by omega), Int.fdiv_eq_ediv_of_nonneg _ (Int.natCast_nonneg _)]
  congr 1
  rcases Nat.le_total count.toNat (value.natAbs.log2 + 1) with few | many
  · rw [Nat.min_eq_left few, power]
  · -- No place of the number is left, whether one stops there or goes on.
    have small : value.natAbs < 2 ^ (value.natAbs.log2 + 1) := Nat.lt_log2_self
    have smaller : value.natAbs < 2 ^ count.toNat :=
      Nat.lt_of_lt_of_le small (Nat.pow_le_pow_right (by omega) many)
    rw [Nat.min_eq_right many]
    exact (ediv_of_natAbs_lt small).trans (ediv_of_natAbs_lt smaller).symm

theorem shiftLeft_eq_ok :
    shiftLeft value count = .ok result ↔
      onIntegers? withinShift .shiftLeft value count = some result := by
  simp only [onIntegers?, withinShift]
  rw [shiftLeft]
  by_cases negative : count < 0
  · grind
  · rw [if_neg negative]
    by_cases zero : value = 0
    · grind
    · by_cases far : maxShift ≤ count.toNat
      · grind
      simp_all [if_neg]

/-! Operators. -/

theorem ofBool_eq (holds : Prop) [Decidable holds] {flag : Bool} (same : flag ↔ holds) :
    Value.ofBool flag = .int (truth holds) := by simp_all [Value.ofBool, truth]

theorem UnaryOp.apply_int (op : UnaryOp) (value : Int) :
    op.apply (.int value) = .ok (.int (op.onInteger value)) := by
  cases op with
  | logicalNot => exact congrArg Except.ok (ofBool_eq _ (by simp [Value.isTrue]))
  | complement => rw [onInteger, ← complement_eq]; rfl
  | negate => rfl
  | keep => rfl

/-- An outcome and an integer that may be missing say the same. -/
def Agree (outcome : Except Fault Value) (integer : Option Int) : Prop :=
  ∀ value, outcome = .ok value ↔ ∃ result, integer = some result ∧ value = .int result

theorem Agree.ok (same : outcome = .ok (.int result)) : Agree outcome (some result) := by
  intro value
  simp [same, eq_comm]

theorem Agree.none {fault : Fault} (failed : outcome = .error fault) :
    Agree outcome none := by
  intro value
  simp [failed]

theorem Agree.bind (agree : Agree outcome integer)
    {next : Value → Except Fault Value} {nextInteger : Int → Option Int}
    (further : ∀ result, Agree (next (.int result)) (nextInteger result)) :
    Agree (outcome.bind next) (integer.bind nextInteger) := by
  intro value
  rw [bind_eq_ok]
  constructor
  · rintro ⟨found, first, second⟩
    obtain ⟨result, known, rfl⟩ := (agree found).mp first
    rw [known]
    exact (further result value).mp second
  · rintro ⟨last, known, rfl⟩
    obtain ⟨result, first, second⟩ := Option.bind_eq_some_iff.mp known
    exact ⟨_, (agree _).mpr ⟨result, first, rfl⟩, (further result _).mpr ⟨last, second, rfl⟩⟩

theorem Agree.map (agree : Agree outcome integer)
    {change : Value → Value} {changeInteger : Int → Int}
    (same : ∀ result, change (.int result) = .int (changeInteger result)) :
    Agree (outcome.map change) (integer.map changeInteger) := by
  rw [Option.map_eq_bind]
  exact agree.bind fun result => .ok (congrArg Except.ok (same result))

section Operators

variable (left right : Int)

theorem agree_comparison (holds : Option Ordering → Bool) (relation : Prop) [Decidable relation]
    (same : holds (some (compare left right)) ↔ relation) :
    Agree (comparison holds (.int left) (.int right)) (some (truth relation)) :=
  .ok (congrArg Except.ok (ofBool_eq relation same))

theorem agree_shiftLeft :
    Agree (apply .shiftLeft (.int left) (.int right))
      (onIntegers? withinShift .shiftLeft left right) := by
  show Agree ((shiftLeft left right).bind fun result => .ok (.int result)) _
  cases shifted : shiftLeft left right with
  | ok result =>
    rw [shiftLeft_eq_ok.mp shifted]
    exact .ok rfl
  | error fault =>
    cases known : onIntegers? withinShift .shiftLeft left right with
    | none => exact .none rfl
    | some result =>
      rw [shiftLeft_eq_ok.mpr known] at shifted
      cases shifted

theorem agree_shiftRight :
    Agree (apply .shiftRight (.int left) (.int right))
      (onIntegers? withinShift .shiftRight left right) := by
  show Agree ((shiftRight left right).bind fun result => .ok (.int result)) _
  rw [onIntegers?]
  split
  next natural =>
    rw [shiftRight_eq natural]
    exact .ok rfl
  next negative =>
    rw [shiftRight, if_pos (by omega)]
    exact .none rfl

theorem isZero_int : isZero (.int right) ↔ right = 0 := by
  simp [isZero, Value.isTrue]

theorem agree_apply (op : BinaryOp) :
    Agree (op.apply (.int left) (.int right)) (op.onIntegers? withinShift left right) := by
  cases op with
  | logicalOr => exact .ok (congrArg Except.ok (ofBool_eq _ (by simp [Value.isTrue])))
  | logicalAnd => exact .ok (congrArg Except.ok (ofBool_eq _ (by simp [Value.isTrue])))
  | bitOr => exact .ok (congrArg (fun result => Except.ok (Value.int result)) (bitOr_eq left right))
  | bitXor => exact .ok (congrArg (fun result => Except.ok (Value.int result)) (bitXor_eq left right))
  | bitAnd => exact .ok (congrArg (fun result => Except.ok (Value.int result)) (bitAnd_eq left right))
  | equal => exact agree_comparison left right (· == some .eq) (left = right) (by simp)
  | notEqual => exact agree_comparison left right (· != some .eq) (left ≠ right) (by simp)
  | less => exact agree_comparison left right (· == some .lt) (left < right) (by
      simp [Int.compare_eq_lt])
  | greater => exact agree_comparison left right (· == some .gt) (right < left) (by
      simp [Int.compare_eq_gt])
  | lessEqual =>
    exact agree_comparison left right (fun found => found == some .lt || found == some .eq)
      (left ≤ right) (by
        simp only [Bool.or_eq_true, beq_iff_eq, Option.some.injEq, Int.compare_eq_lt,
          Int.compare_eq_eq]
        omega)
  | greaterEqual =>
    exact agree_comparison left right (fun found => found == some .gt || found == some .eq)
      (right ≤ left) (by
        simp only [Bool.or_eq_true, beq_iff_eq, Option.some.injEq, Int.compare_eq_gt,
          Int.compare_eq_eq]
        omega)
  | shiftLeft => exact agree_shiftLeft left right
  | shiftRight => exact agree_shiftRight left right
  | add => exact .ok rfl
  | subtract => exact .ok rfl
  | multiply => exact .ok rfl
  | divide =>
    rw [apply, onIntegers?]
    simp only [isZero_int]
    split
    · exact .none rfl
    · exact .ok rfl
  | modulo =>
    rw [apply, onIntegers?]
    simp only [isZero_int]
    split
    · exact .none rfl
    · exact .ok rfl

end Operators

/-! Trees. -/

/-- A tree of integers has the value it denotes. -/
theorem Tree.agree_evaluate {tree : Tree}
    (integers : ∀ text ∈ tree.numbers, IntegerText text.toList) :
    Agree tree.evaluate (tree.integer? withinShift) := by
  induction tree with
  | number text =>
    intro value
    simp_all [Tree.evaluate, numberValue_integer, Tree.numbers, Tree.integer?]
  | name text => exact .ok rfl
  | group inside ih => exact ih integers
  | unary op inside ih =>
    rw [Tree.integer?, Option.map_eq_bind]
    exact (ih integers).bind fun result => .ok (op.apply_int result)
  | binary op left right leftHypothesis rightHypothesis =>
    simp only [Tree.numbers, List.mem_append] at integers
    have leftAgrees := leftHypothesis fun text mem => integers text (.inl mem)
    have rightAgrees := rightHypothesis fun text mem => integers text (.inr mem)
    exact leftAgrees.bind fun result => rightAgrees.bind (agree_apply result · op)
  | alternative test whenTrue whenFalse testHypothesis trueHypothesis falseHypothesis =>
    simp only [Tree.numbers, List.mem_append] at integers
    have testAgrees := testHypothesis fun text mem => integers text (.inl (.inl mem))
    have trueAgrees := trueHypothesis fun text mem => integers text (.inl (.inr mem))
    have falseAgrees := falseHypothesis fun text mem => integers text (.inr mem)
    refine testAgrees.bind fun tested => trueAgrees.bind fun holding => falseAgrees.map ?_
    grind [Value.isTrue]

end WebShader.Condition
