import Mathlib.Data.Bool.Basic
import Mathlib.Data.List.Nodup
import WebShader.Proofs.Sharing.Classes
import WebShader.Proofs.Sharing.Occurrence

/-!
Contract: which globals are classified as constant.

Owns: what makes a global constant, given the constant ones; the tagging of
constants one at a time, in any order; the least set of constants, in which every
tagging ends; and the classes of the globals in any order of their list.

More constants never make a global less constant. From this alone it follows that
taggings cannot go wrong: whatever is tagged belongs to every set that has all
globals which are constant by it, and a tagging that is stuck has them all.
-/

namespace WebShader.Sharing

open List Token GlobalVariable Facts
open Usage

variable {facts : Facts} {target : GlobalVariable} {found others : List GlobalVariable}
  {constants known writtenNames : List String} {next : Option Token} {expr : String}
  {constant larger : String → Prop} {token : Token}
  {among cyclic : GlobalVariable → Prop}

/-! Constant expressions. -/

/-- Whether a token in front of another one is fit for a constant expression, given the names
that are constant. A name that is not called must be constant, also as a member. -/
def Admissible (constant : String → Prop) (token : Token) (next : Option Token) : Prop :=
  match token.kind with
  | .ident =>
    if next.any (·.isPunct "(") = true then token.text ∈ valueTypes
    else constant token.text ∨ token.text = "true" ∨ token.text = "false"
  | .string | .directive => False
  | .punct => token.text ∉ assignmentOperators ++ stepOperators
  | _ => True

/-- Every token of an expression is fit for a constant one: literals, constructors of value
types, names that are constant, and operators that assign nothing. -/
def UsesOnly (constant : String → Prop) (expression : String) : Prop :=
  ∀ before token after, (lex expression).filter (!·.isTrivia) = before ++ token :: after →
    Admissible constant token after.head?

theorem isConstantToken_iff :
    isConstantToken constants token next ↔ Admissible (· ∈ constants) token next := by
  rw [isConstantToken.eq_def, Admissible.eq_def]
  grind

theorem allConstant_iff {tokens : List Token} :
    allConstant constants tokens ↔ ∀ before token after, tokens = before ++ token :: after →
        Admissible (· ∈ constants) token after.head? := by
  induction tokens with
  | nil => simp [allConstant]
  | cons first rest ih =>
    rw [allConstant, Bool.and_eq_true, isConstantToken_iff, ih]
    constructor
    · rintro ⟨here, later⟩ before token after shape
      cases before with
      | nil => grind
      | cons passed others => grind
    · intro all
      exact ⟨all [] first rest rfl, fun before token after shape =>
        all (first :: before) token after (by rw [shape, cons_append])⟩

theorem isConstantExpression_iff :
    isConstantExpression constants expr ↔ UsesOnly (· ∈ constants) expr :=
  allConstant_iff

theorem Admissible.mono (grows : ∀ name, constant name → larger name)
    (admissible : Admissible constant token next) : Admissible larger token next := by
  rw [Admissible.eq_def] at admissible ⊢
  cases kind : token.kind with
  | ident => grind
  | punct => simpa only [kind] using admissible
  | string => simp only [kind] at admissible
  | directive => simp only [kind] at admissible
  | number => trivial
  | whitespace => trivial
  | newline => trivial
  | comment => trivial

theorem UsesOnly.mono (grows : ∀ name, constant name → larger name)
    (uses : UsesOnly constant expr) : UsesOnly larger expr :=
  fun before token after shape => (uses before token after shape).mono grows

/-! Constants. -/

/-- What makes a global constant, given the names that are constant: a literal of an
enumeration, or a global that no stage writes, with an initial value of constants or none. -/
def Qualifies (writtenNames : List String) (constant : String → Prop) (target : GlobalVariable) :
    Prop :=
  (isEnumName target.name = true ∧
    ∃ value, target.initializer = some value ∧ isLiteral value = true) ∨
  (target.name ∉ writtenNames ∧ ∀ value, target.initializer = some value → UsesOnly constant value)

theorem isConstant_iff :
    isConstant writtenNames constants target ↔ Qualifies writtenNames (· ∈ constants) target := by
  rw [isConstant, Qualifies]
  cases target.initializer with
  | none => simp
  | some value => simp [isConstantExpression_iff]

theorem Qualifies.mono (grows : ∀ name, constant name → larger name)
    (qualifies : Qualifies writtenNames constant target) : Qualifies writtenNames larger target :=
  qualifies.imp_right fun unwritten =>
    ⟨unwritten.1, fun value given => (unwritten.2 value given).mono grows⟩

def constantNames (known : List String) (among : GlobalVariable → Prop) (name : String) : Prop :=
  name ∈ known ∨ ∃ target, among target ∧ target.name = name

theorem constantNames_mono {more : GlobalVariable → Prop}
    (grows : ∀ target, among target → more target) (name : String)
    (constant : constantNames known among name) : constantNames known more name :=
  constant.imp_right fun ⟨target, listed, same⟩ => ⟨target, grows target listed, same⟩

section Tagging

variable {writtenNames known : List String} {pending : List GlobalVariable}

theorem isConstant_append_iff :
    isConstant writtenNames (known ++ found.map name) target ↔
      Qualifies writtenNames (constantNames known (· ∈ found)) target := by
  have same : (· ∈ known ++ found.map name) = constantNames known (· ∈ found) := by
    funext name
    simp [constantNames]
  rw [isConstant_iff, same]

variable (writtenNames known pending)

/-- Tagging pending globals as constant, one at a time: each is constant by those before it. -/
inductive Tagged : List GlobalVariable → Prop
  | start : Tagged []
  | tag {found : List GlobalVariable} {target : GlobalVariable} :
      Tagged found → target ∈ pending → target ∉ found →
      isConstant writtenNames (known ++ found.map name) target = true →
      Tagged (target :: found)

/-- No further global can be tagged. -/
def IsStuck (found : List GlobalVariable) : Prop :=
  ∀ target ∈ pending,
    isConstant writtenNames (known ++ found.map name) target = true → target ∈ found

/-- A set of pending globals that has exactly those which are constant by it. -/
def IsStable (among : GlobalVariable → Prop) : Prop :=
  ∀ target, among target ↔
    target ∈ pending ∧ Qualifies writtenNames (constantNames known among) target

variable {writtenNames known pending}

theorem Tagged.nodup (tagged : Tagged writtenNames known pending found) : found.Nodup := by
  induction tagged with
  | start => exact .nil
  | tag _ _ fresh _ ih => exact nodup_cons.mpr ⟨fresh, ih⟩

theorem Tagged.subset (tagged : Tagged writtenNames known pending found) : found ⊆ pending := by
  induction tagged with
  | start => exact nil_subset _
  | tag _ listed _ _ ih => exact cons_subset.mpr ⟨listed, ih⟩

/-- What was constant when it was tagged is constant by all that is tagged in the end. -/
theorem Tagged.qualifies (tagged : Tagged writtenNames known pending found) :
    ∀ target ∈ found, Qualifies writtenNames (constantNames known (· ∈ found)) target := by
  induction tagged with
  | start => exact fun _ absurdity => nomatch absurdity
  | @tag passed target _ _ _ constant ih =>
    have grows : ∀ name, constantNames known (· ∈ passed) name →
        constantNames known (· ∈ target :: passed) name :=
      constantNames_mono fun _ => mem_cons_of_mem target
    refine forall_mem_cons.mpr ⟨(isConstant_append_iff.mp constant).mono grows, ?_⟩
    exact fun other listed => (ih other listed).mono grows

/-- What is tagged belongs to every stable set. -/
theorem Tagged.least (tagged : Tagged writtenNames known pending found)
    (stable : IsStable writtenNames known pending among) :
    ∀ target ∈ found, among target := by
  induction tagged with
  | start => exact fun _ absurdity => nomatch absurdity
  | tag _ listed _ constant ih =>
    refine forall_mem_cons.mpr ⟨(stable _).mpr ⟨listed, ?_⟩, ih⟩
    exact (isConstant_append_iff.mp constant).mono (constantNames_mono ih)

theorem Tagged.stable (tagged : Tagged writtenNames known pending found)
    (stuck : IsStuck writtenNames known pending found) :
    IsStable writtenNames known pending (· ∈ found) := by
  intro target
  constructor
  · exact fun listed => ⟨tagged.subset listed, tagged.qualifies target listed⟩
  · rintro ⟨listed, qualifies⟩
    exact stuck target listed (isConstant_append_iff.mpr qualifies)

/-- Globals that are constant by those tagged so far can be tagged one after another. -/
theorem Tagged.batch (tagged : Tagged writtenNames known pending found)
    (batch : List GlobalVariable) (constant : ∀ target ∈ batch, target ∈ pending ∧
      isConstant writtenNames (known ++ found.map name) target) :
    ∃ later, Tagged writtenNames known pending later ∧
      ∀ target, target ∈ later ↔ target ∈ found ∨ target ∈ batch := by
  induction batch with
  | nil => exact ⟨found, tagged, by simp⟩
  | cons first rest ih =>
    obtain ⟨⟨listed, here⟩, others⟩ := forall_mem_cons.mp constant
    obtain ⟨later, laterTagged, same⟩ := ih others
    by_cases present : first ∈ later
    · grind
    · have still : isConstant writtenNames (known ++ later.map name) first := by
        refine isConstant_append_iff.mpr ((isConstant_append_iff.mp here).mono ?_)
        exact constantNames_mono fun target mem => (same target).mpr (.inl mem)
      refine ⟨first :: later, .tag laterTagged listed present still, fun target => ?_⟩
      rw [mem_cons, mem_cons, same, or_left_comm]

/-- The rounds tag, and end where nothing more can be tagged. The invariant of a round: the
constants are those known and those tagged, and pending is what is left. -/
theorem settleConstants_tags {constants : List String} {found rest : List GlobalVariable}
    (tagged : Tagged writtenNames known pending found)
    (names : ∀ name, name ∈ constants ↔ constantNames known (· ∈ found) name)
    (left : ∀ target, target ∈ rest ↔ target ∈ pending ∧ target ∉ found) :
    ∃ final, Tagged writtenNames known pending final ∧ IsStuck writtenNames known pending final ∧
      ∀ target, target ∈ final ↔
        target ∈ found ∨ target ∈ settleConstants writtenNames constants rest := by
  induction size : rest.length using Nat.strongRecOn generalizing constants found rest with
  | ind length ih =>
    have constant_iff : ∀ target, isConstant writtenNames constants target =
        isConstant writtenNames (known ++ found.map GlobalVariable.name) target := by
      intro target
      rw [Bool.eq_iff_iff, isConstant_append_iff, isConstant_iff,
        funext fun name => propext (names name)]
    rw [settleConstants]
    by_cases none : (constantOnes writtenNames constants rest).isEmpty = true
    · rw [if_pos none]
      refine ⟨found, tagged, ?_, by simp⟩
      intro target listed constant
      apply Decidable.byContradiction
      intro fresh
      simp_all [constantOnes]
    · obtain ⟨later, laterTagged, same⟩ :=
        tagged.batch (constantOnes writtenNames constants rest) fun target mem =>
          have ⟨isLeft, isOne⟩ := mem_filter.mp mem
          ⟨((left target).mp isLeft).1, (constant_iff target).symm.trans isOne⟩
      have laterNames : ∀ name, name ∈ constants ++
          (constantOnes writtenNames constants rest).map GlobalVariable.name ↔
            constantNames known (· ∈ later) name := by
        intro name
        simp only [mem_append, names, constantNames, mem_map, same, or_and_right,
          exists_or, or_assoc]
      have laterLeft : ∀ target, target ∈ otherOnes writtenNames constants rest ↔
          target ∈ pending ∧ target ∉ later := by
        intro target
        rw [same, not_or, ← and_assoc]
        simp only [otherOnes, constantOnes]
        grind
      obtain ⟨final, finalTagged, stuck, members⟩ :=
        ih _ (size ▸ otherOnes_length none) laterTagged laterNames laterLeft rfl
      grind

/-- The constants that are found are the least set that has all it makes constant. -/
theorem settleConstants_stable :
    IsStable writtenNames known pending (· ∈ settleConstants writtenNames known pending) ∧
      ∀ among, IsStable writtenNames known pending among →
        ∀ target ∈ settleConstants writtenNames known pending, among target := by
  obtain ⟨final, tagged, stuck, members⟩ :=
    @settleConstants_tags writtenNames known pending known [] pending .start (by simp [constantNames])
      (by simp)
  have same : (· ∈ final) = (· ∈ settleConstants writtenNames known pending) := by
    simp [members]
  refine ⟨same ▸ tagged.stable stuck, fun among stable target mem => ?_⟩
  exact tagged.least stable target (congrFun same target ▸ mem)

/-- However the globals are tagged, there is an end, and it is the same one. -/
theorem Tagged.settles (tagged : Tagged writtenNames known pending found) :
    found.length ≤ pending.length ∧ (IsStuck writtenNames known pending found →
      ∀ target, target ∈ found ↔ target ∈ settleConstants writtenNames known pending) := by
  refine ⟨tagged.nodup.length_le_of_subset tagged.subset, fun stuck target => ?_⟩
  obtain ⟨stable, least⟩ := @settleConstants_stable writtenNames known pending
  exact ⟨tagged.least stable target, least _ (tagged.stable stuck) target⟩

/-! Initial values that depend on each other. -/

/-- The initial value of a global uses a name, and does not make it a literal of an
enumeration. -/
def DependsOn (target : GlobalVariable) (name : String) : Prop :=
  ∃ value before token after, target.initializer = some value ∧
    (isEnumName target.name && isLiteral value) = false ∧
    (lex value).filter (!·.isTrivia) = before ++ token :: after ∧ token.isWord name = true ∧
    after.head?.any (·.isPunct "(") = false ∧ name ≠ "true" ∧ name ≠ "false"

theorem Qualifies.constant_of_dependsOn {name : String}
    (qualifies : Qualifies writtenNames constant target) (depends : DependsOn target name) :
    constant name := by
  obtain ⟨value, before, token, after, given, noLiteral, shape, isWord, plain, notTrue, notFalse⟩ :=
    depends
  rcases qualifies with ⟨isEnum, other, again, literal⟩ | ⟨-, uses⟩
  · grind
  · simp only [Token.isWord, Bool.and_eq_true, beq_iff_eq] at isWord
    have admissible := uses value given before token after shape
    simp_all [Admissible]

/-- Globals that each depend on another one of them are never tagged: the first one would need
another one before it. -/
theorem Tagged.not_mem_of_cyclic (tagged : Tagged writtenNames known pending found)
    (single : ∀ target ∈ pending, ∀ other, cyclic other → target.name = other.name → target = other)
    (depends : ∀ target, cyclic target →
      ∃ other, cyclic other ∧ other.name ∉ known ∧ DependsOn target other.name) :
    ∀ target ∈ found, ¬cyclic target := by
  induction tagged with
  | start => exact fun _ absurdity => nomatch absurdity
  | @tag passed target earlier _ _ constant ih =>
    refine forall_mem_cons.mpr ⟨fun isCyclic => ?_, ih⟩
    obtain ⟨other, otherCyclic, unknown, uses⟩ := depends target isCyclic
    rcases (isConstant_append_iff.mp constant).constant_of_dependsOn uses with
      isKnown | ⟨mem, listed, same⟩
    · exact unknown isKnown
    · obtain rfl := single mem (earlier.subset listed) other otherCyclic same
      exact ih mem listed otherCyclic

theorem not_mem_settleConstants_of_cyclic
    (single : ∀ target ∈ pending, ∀ other, cyclic other → target.name = other.name → target = other)
    (depends : ∀ target, cyclic target →
      ∃ other, cyclic other ∧ other.name ∉ known ∧ DependsOn target other.name)
    (isCyclic : cyclic target) : target ∉ settleConstants writtenNames known pending := by
  obtain ⟨final, tagged, stuck, -⟩ :=
    @settleConstants_tags writtenNames known pending known [] pending .start (by simp [constantNames])
      (by simp)
  rw [← tagged.settles.2 stuck]
  exact fun mem => tagged.not_mem_of_cyclic single depends target mem isCyclic

end Tagging

/-! The order of the globals. -/

section Order

variable {wanted others : List String} (same : ∀ name, name ∈ wanted ↔ name ∈ others)

include same

theorem isWordIn_congr (token : Token) : token.isWordIn wanted = token.isWordIn others := by
  rw [Token.isWordIn, Token.isWordIn]
  simp [same]

theorem writtenFrom_congr (tokens : List Token) (parameterPrefix : String) (prev : Option Token)
    (code : List Placed) :
    writtenFrom tokens wanted parameterPrefix prev code =
      writtenFrom tokens others parameterPrefix prev code := by
  induction code generalizing prev with
  | nil => rfl
  | cons entry rest ih =>
    rw [writtenFrom, writtenFrom, isWordIn_congr same, ih]

theorem referencedFrom_congr (prev : Option Token) (tokens : List Token) :
    referencedFrom wanted prev tokens = referencedFrom others prev tokens := by
  induction tokens generalizing prev with
  | nil => rfl
  | cons token rest ih =>
    rw [referencedFrom, referencedFrom, isWordIn_congr same, ih]

/-- What the stages do with the globals does not depend on the order of the names. -/
theorem Facts.ofStages_congr (parameterPrefix vertex fragment : String) :
    ofStages parameterPrefix wanted vertex fragment =
      ofStages parameterPrefix others vertex fragment := by
  rw [ofStages, ofStages]
  simp only [written, referenced, writtenFrom_congr same, referencedFrom_congr same]

end Order

theorem settleConstants_congr {pending : List GlobalVariable}
    (same : ∀ target, target ∈ pending ↔ target ∈ others) (target : GlobalVariable) :
    target ∈ settleConstants writtenNames known pending ↔
      target ∈ settleConstants writtenNames known others := by
  obtain ⟨stable, least⟩ := @settleConstants_stable writtenNames known pending
  obtain ⟨stableOther, leastOther⟩ := @settleConstants_stable writtenNames known others
  have equal : ∀ among, IsStable writtenNames known pending among ↔
      IsStable writtenNames known others among := by
    simp only [IsStable, same, implies_true]
  grind

theorem sharingOf_congr {constants : List GlobalVariable}
    (same : target ∈ constants ↔ target ∈ others) :
    sharingOf facts constants target = sharingOf facts others target := by
  rw [sharingOf, sharingOf]
  simp only [contains_eq_mem, same]

theorem assignSharing_value (facts : Facts) (constants globals : List GlobalVariable) :
    (assignSharing facts constants globals).value =
      globals.map fun target => { target with sharing := (sharingOf facts constants target).value } := by
  induction globals with
  | nil => rfl
  | cons first rest ih =>
    exact congrArg ({ first with sharing := (sharingOf facts constants first).value } :: ·) ih

/-- A global is classified as constant if it is found among the constants. -/
theorem sharingOf_constant {constants : List GlobalVariable} :
    (sharingOf facts constants target).value = .constant ↔
      target.claimed = false ∧ target ∈ constants := by
  rw [sharingOf]
  split
  next claimed => simp [claimed]
  next unclaimed =>
    split
    next found => simpa [unclaimed] using found
    next missing =>
      rw [sharingOfVariable_value]
      grind

/-! Classification. -/

/-- A source cannot be judged: a subscript behind one of the names closes on a directive line. -/
def IsUnreadable (names : List String) (source : String) : Prop :=
  ∃ name ∈ names, Somewhere name.toList Faults none (spotsOf source)

section Classification

variable {parameterPrefix vertex fragment : String} {names : List String}

theorem ofStages_faults :
    (∃ fault, ofStages parameterPrefix names vertex fragment = .error fault) ↔
      IsUnreadable names vertex ∨ IsUnreadable names fragment := by
  rw [IsUnreadable, IsUnreadable, ← @written_faults names parameterPrefix vertex,
    ← @written_faults names parameterPrefix fragment, ofStages]
  cases written names parameterPrefix vertex with
  | error fault => exact iff_of_true ⟨fault, rfl⟩ (.inl ⟨fault, rfl⟩)
  | ok vertexWrites =>
    cases written names parameterPrefix fragment with
    | error fault => exact iff_of_true ⟨fault, rfl⟩ (.inr ⟨fault, rfl⟩)
    | ok fragmentWrites =>
      refine iff_of_false ?_ ?_
      · rintro ⟨fault, ⟨⟩⟩
      simp

theorem ofStages_ok (collects : ofStages parameterPrefix names vertex fragment = .ok facts) :
    written names parameterPrefix vertex = .ok facts.vertexWrites ∧
      written names parameterPrefix fragment = .ok facts.fragmentWrites := by
  obtain ⟨vertexWrites, vertexFinds, further⟩ := bind_ok collects
  obtain ⟨fragmentWrites, fragmentFinds, last⟩ := bind_ok further
  obtain rfl := Except.ok.inj last
  exact ⟨vertexFinds, fragmentFinds⟩

variable {known : List String} {globals : List GlobalVariable}

theorem classify_error {fault : Fault}
    (fails : ofStages parameterPrefix (globals.map name) vertex fragment =
      .error fault) :
    (classify parameterPrefix known globals vertex fragment).run.value = .error fault := by
  rw [classify, fails]
  rfl

def unclaimed (globals : List GlobalVariable) : List GlobalVariable :=
  globals.filter fun target => !target.claimed

theorem classify_value
    (collects : ofStages parameterPrefix (globals.map name) vertex fragment =
      .ok facts) :
    (classify parameterPrefix known globals vertex fragment).run.value =
      .ok (globals.map fun target => { target with
        sharing := (sharingOf facts (settleConstants (facts.vertexWrites ++ facts.fragmentWrites)
          known (unclaimed globals)) target).value }) := by
  rw [classify, collects, ← assignSharing_value]
  rfl

/-- For all orders of the globals a classification is made by the same facts, with the same
classes. -/
theorem classify_permuted
    (collects : ofStages parameterPrefix (globals.map name) vertex fragment =
      .ok facts) (permuted : others.Perm globals) :
    (classify parameterPrefix known others vertex fragment).run.value =
      .ok (others.map fun target => { target with
        sharing := (sharingOf facts (settleConstants (facts.vertexWrites ++ facts.fragmentWrites)
          known (unclaimed globals)) target).value }) := by
  grind [ofStages_congr, classify_value, unclaimed, sharingOf_congr, settleConstants_congr]

end Classification

/-- The globals classified as constant are those found to be constant. -/
theorem classified_constant_iff {globals : List GlobalVariable} (target : GlobalVariable) :
    target ∈ globals ∧ (sharingOf facts (settleConstants writtenNames known (unclaimed globals))
        target).value = .constant ↔
      target ∈ settleConstants writtenNames known (unclaimed globals) := by
  rw [sharingOf_constant]
  constructor
  · exact fun found => found.2.2
  · intro found
    have listed := mem_filter.mp ((settleConstants_stable.1 target).mp found).1
    exact ⟨listed.1, by simpa using listed.2, found⟩

/-- Classification finds the least set of constants, whatever the order of the globals. It
fails exactly if a subscript behind the name of a global closes on a directive line. Otherwise
there is one class for each global, which it gets in every order of the list; the globals
classified as constant are the least set of unclaimed ones that has exactly those which are
constant by it, so globals whose initial values depend on each other are not among them; and
whoever tags constants one at a time, in any order, comes to an end, with this set. -/
theorem classify_least_constants (parameterPrefix : String) (known : List String)
    {globals : List GlobalVariable} (distinct : (globals.map GlobalVariable.name).Nodup)
    (vertex fragment : String) :
    (IsUnreadable (globals.map GlobalVariable.name) vertex ∨
        IsUnreadable (globals.map GlobalVariable.name) fragment →
      ∃ fault, ∀ others : List GlobalVariable, others.Perm globals →
        (classify parameterPrefix known others vertex fragment).run.value = .error fault) ∧
    (¬(IsUnreadable (globals.map GlobalVariable.name) vertex ∨
        IsUnreadable (globals.map GlobalVariable.name) fragment) →
      ∃ (vertexWrites fragmentWrites : List String) (classOf : GlobalVariable → Sharing),
        written (globals.map GlobalVariable.name) parameterPrefix vertex = .ok vertexWrites ∧
        written (globals.map GlobalVariable.name) parameterPrefix fragment = .ok fragmentWrites ∧
        (∀ others : List GlobalVariable, others.Perm globals →
          (classify parameterPrefix known others vertex fragment).run.value =
            .ok (others.map fun target => { target with sharing := classOf target })) ∧
        IsStable (vertexWrites ++ fragmentWrites) known (unclaimed globals)
          (fun target => target ∈ globals ∧ classOf target = .constant) ∧
        (∀ among, IsStable (vertexWrites ++ fragmentWrites) known (unclaimed globals) among →
          ∀ target ∈ globals, classOf target = .constant → among target) ∧
        (∀ cyclic : GlobalVariable → Prop,
          (∀ target, cyclic target → target ∈ globals ∧
            ∃ other, cyclic other ∧ other.name ∉ known ∧ DependsOn target other.name) →
          ∀ target, cyclic target → classOf target ≠ .constant) ∧
        ∀ found, Tagged (vertexWrites ++ fragmentWrites) known (unclaimed globals) found →
          found.length ≤ (unclaimed globals).length ∧
          (IsStuck (vertexWrites ++ fragmentWrites) known (unclaimed globals) found →
            ∀ target, target ∈ found ↔ target ∈ globals ∧ classOf target = .constant)) := by
  constructor
  · intro unreadable
    obtain ⟨fault, fails⟩ := (@ofStages_faults parameterPrefix vertex fragment _).mpr unreadable
    refine ⟨fault, fun others permuted => classify_error ?_⟩
    rwa [ofStages_congr fun name => (permuted.map GlobalVariable.name).mem_iff]
  · intro readable
    cases collects : ofStages parameterPrefix (globals.map GlobalVariable.name) vertex
        fragment with
    | error fault => exact absurd (ofStages_faults.mp ⟨fault, collects⟩) readable
    | ok facts =>
      obtain ⟨vertexFinds, fragmentFinds⟩ := ofStages_ok collects
      obtain ⟨stable, least⟩ := @settleConstants_stable
        (facts.vertexWrites ++ facts.fragmentWrites) known (unclaimed globals)
      refine ⟨facts.vertexWrites, facts.fragmentWrites, _, vertexFinds, fragmentFinds,
        fun others => classify_permuted collects, ?_, ?_, ?_, ?_⟩
      · simpa only [classified_constant_iff] using stable
      · grind [classified_constant_iff]
      · intro cyclic depends target isCyclic isOne
        have found := (classified_constant_iff target).mp ⟨(depends target isCyclic).1, isOne⟩
        refine not_mem_settleConstants_of_cyclic ?_ (fun other => fun member =>
          (depends other member).2) isCyclic found
        intro member listed other otherCyclic same
        exact List.inj_on_of_nodup_map distinct (List.mem_filter.mp listed).1
          (depends other otherCyclic).1 same
      · intro found tagged
        refine ⟨tagged.settles.1, fun stuck target => ?_⟩
        rw [classified_constant_iff]
        exact tagged.settles.2 stuck target

def plainGlobal (name : String) (initializer : Option String) (sharing : Sharing) : GlobalVariable :=
  ⟨"float", name, initializer, "", false, sharing⟩

def chainGlobals : List GlobalVariable :=
  [plainGlobal "a" (some "b") .unclassified, plainGlobal "b" (some "1.0") .unclassified,
    plainGlobal "p" (some "q") .unclassified, plainGlobal "q" (some "p") .unclassified,
    plainGlobal "w" none .unclassified]

theorem classify_chain :
    (classify "PARAM_" [] chainGlobals "w=1;" "").run.value =
      .ok [plainGlobal "a" (some "b") .constant, plainGlobal "b" (some "1.0") .constant,
        plainGlobal "p" (some "q") .stageLocal, plainGlobal "q" (some "p") .stageLocal,
        plainGlobal "w" none .stageLocal] :=
  eq_ok_of_toOption (by decide +kernel)

/-- The chain has its classes in the other order too. A subscript that is closed by the value of
a macro cannot be judged. -/
theorem classify_least_constants_chain :
    (classify "PARAM_" [] chainGlobals.reverse "w=1;" "").run.value =
      .ok [plainGlobal "w" none .stageLocal, plainGlobal "q" (some "p") .stageLocal,
        plainGlobal "p" (some "q") .stageLocal, plainGlobal "b" (some "1.0") .constant,
        plainGlobal "a" (some "b") .constant] ∧
    ∃ fault, (classify "PARAM_" [] [plainGlobal "a" (some "f()") .unclassified]
      "a[\n#define L 0]\nL=1;" "").run.value = .error fault := by
  constructor
  · have readable : ¬(IsUnreadable (chainGlobals.map name) "w=1;" ∨
        IsUnreadable (chainGlobals.map name) "") := by
      rw [← @ofStages_faults "PARAM_"]
      rintro ⟨fault, fails⟩
      have failed := @classify_error _ _ _ [] _ _ fails
      rw [classify_chain] at failed
      cases failed
    obtain ⟨_, _, classOf, -, -, classes, -⟩ :=
      (@classify_least_constants "PARAM_" [] chainGlobals (by decide) "w=1;" "").2 readable
    have known := Except.ok.inj ((classes _ (.refl _)).symm.trans classify_chain)
    simp_all
  · have unreadable : IsUnreadable ["a"] "a[\n#define L 0]\nL=1;" := by
      apply (@written_faults ["a"] "PARAM_" _).mp
      cases found : written ["a"] "PARAM_" "a[\n#define L 0]\nL=1;" with
      | error fault => exact ⟨fault, rfl⟩
      | ok names =>
        have nothing : (written ["a"] "PARAM_" "a[\n#define L 0]\nL=1;").toOption = none := by
          decide +kernel
        rw [found] at nothing
        cases nothing
    obtain ⟨fault, fails⟩ := (@classify_least_constants "PARAM_" []
      [plainGlobal "a" (some "f()") .unclassified] (by decide) "a[\n#define L 0]\nL=1;" "").1
        (.inl unreadable)
    exact ⟨fault, fails _ (.refl _)⟩

end WebShader.Sharing
