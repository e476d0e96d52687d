import WebShader.Proofs.Lowering.Declaring
import WebShader.Proofs.Lowering.Omission

/-!
Contract: accesses to block members that lowering leaves in a source.

Owns: accesses over any blanks, comments and line ends, that new declarations
bring back no access on one line, and the two kinds of access that are left.
-/

namespace WebShader.Lowering

open List Token
open Text
open Sharing

variable {context : Context} {after pieces : List Lexeme} {member source : String}

/-! Accesses of a source and of its parts. -/

/-- An access that starts in front of a line end is complete there. -/
theorem AccessAhead.within {front back : List Lexeme}
    (ahead : AccessAhead context (front ++ back) member after) (isSettled : settled front)
    (present : front ≠ []) : ∃ behind, AccessAhead context front member behind := by
  obtain ⟨segment, whole, sameLine, -, again⟩ := ahead.segment
  rcases append_eq_append_iff.mp whole with ⟨inside, rfl, -⟩ | ⟨inside, rfl, -⟩
  · -- The line end would be part of the access.
    simp_all [settled, getLast?_eq_some_getLast]
  · exact ⟨inside, again inside⟩

theorem AccessAhead.append (ahead : AccessAhead context pieces member after) (others : List Lexeme) :
    AccessAhead context (pieces ++ others) member (after ++ others) := by
  obtain ⟨segment, rfl, -, -, again⟩ := ahead.segment
  rw [append_assoc]
  exact again _

theorem selectsAfter_append (selects : Bool) (pieces others : List Lexeme) :
    selectsAfter selects (pieces ++ others) = selectsAfter (selectsAfter selects pieces) others := by
  induction pieces generalizing selects with
  | nil => rfl
  | cons piece rest ih => exact ih _

namespace Flat

variable {context : Context} {selects : Bool} {first second : List Lexeme}

theorem front (flat : Flat context selects (first ++ second)) : Flat context selects first := by
  rintro before rest rfl free member after ahead
  exact flat before (rest ++ second) (append_assoc ..) free member _ (ahead.append second)

theorem back (flat : Flat context selects (first ++ second)) :
    Flat context (selectsAfter selects first) second := by
  rintro before rest rfl free
  refine flat (first ++ before) rest (append_assoc ..).symm ?_
  rwa [selectsAfter_append]

/-- No access reaches over the end of a line. -/
theorem append (isSettled : settled first) (inFirst : Flat context selects first)
    (inSecond : Flat context (selectsAfter selects first) second) :
    Flat context selects (first ++ second) := by
  intro before rest whole free member after ahead
  rcases append_eq_append_iff.mp whole with ⟨inside, rfl, rfl⟩ | ⟨inside, rfl, rfl⟩
  · rw [selectsAfter_append] at free
    exact inSecond inside rest rfl free member after ahead
  · by_cases present : inside = []
    · obtain rfl := present
      rw [append_nil] at inSecond
      exact inSecond [] second rfl free member after ahead
    · obtain ⟨behind, inFront⟩ := ahead.within (by grind [settled]) present
      exact inFirst before inside rfl free member behind inFront

theorem of_pointless (pointless : point ∉ first) : Flat context selects first := by
  rintro before rest rfl - member after ahead
  obtain ⟨segment, rfl, -, hasPoint, -⟩ := ahead.segment
  grind

end Flat

/-! New declarations. -/

theorem Flat.insertDeclarations (insertable : Insertable source) {candidates : List Candidate}
    (wellFormed : ∀ candidate ∈ candidates, candidate.WellFormed)
    (flat : Flat context false (lexemes source.toList)) :
    Flat context false (lexemes
      (insertDeclarations source (candidates.map Candidate.declaration)).toList) := by
  obtain ⟨-, parts, isSettled, plain⟩ := insertable.parts
  rw [parts] at flat
  rw [lexemes_insertDeclarations insertable wellFormed]
  have free := declarations_plain wellFormed
  have pointless : point ∉ candidates.flatMap Candidate.pieces :=
    fun listed => absurd (free point listed) (by decide)
  have body := flat.back
  refine flat.front.append isSettled ?_
  grind [Flat.append, settled_declarations, of_pointless, selectsAfter_plain]

/-! Whole sources. -/

/-- What the passes need of a source to see its accesses: flat names are names and stand for
no block, no number has a name right behind it, self definitions are whole lexemes, and
new declarations have a place and lexemes of their own. -/
structure Lowerable (context : Context) (source : String) : Prop where
  names : FlatNames context
  apart : numbersApart (lexemes (removeBindings source).value.toList) = true
  drops : dropsCleanly (flattened context source) = true
  stands : added context source = [] ∨ headerStands (prepared context source) = true
  wellFormed : ∀ candidate ∈ added context source, candidate.WellFormed

/-- No access on one line to a member of the block that a name stands for is left. -/
theorem lower_flat (lowerable : Lowerable context source) :
    Flat context false (lexemes (lower context source).value.toList) := by
  obtain ⟨flatApart, flat⟩ := flattenMembers_flat lowerable.names lowerable.apart
  obtain ⟨apart, plain⟩ := dropSelfDefinitions_flat lowerable.drops flatApart flat
  rw [lower_value]
  rcases lowerable.stands with none | stands
  · rw [none]
    exact plain
  · exact Flat.insertDeclarations ⟨stands, apart⟩ lowerable.wellFormed plain

/-- An identifier that is no member, a point and an identifier behind it, with any blanks,
comments and line ends between them. -/
structure Access (pieces : List Lexeme) where
  before : List Lexeme
  name : String
  gap : List Lexeme
  innerGap : List Lexeme
  member : String
  after : List Lexeme
  whole : pieces = before ++ ⟨.ident, name.toList⟩ ::
    (gap ++ point :: (innerGap ++ ⟨.ident, member.toList⟩ :: after))
  trivia : ∀ piece ∈ gap ++ innerGap, piece.kind.isTrivia = true
  free : selectsAfter false before = false

def Access.crossesLine {pieces : List Lexeme} (access : Access pieces) : Bool :=
  (access.gap ++ access.innerGap).any (·.kind == .newline)

theorem Access.inline (access : Access pieces) (onLine : access.crossesLine = false) :
    ∀ piece ∈ access.gap ++ access.innerGap, isInline piece := by
  intro piece listed
  have trivia := access.trivia piece listed
  have kind := any_eq_false.mp onLine piece listed
  rw [isInline]
  cases same : piece.kind <;> simp_all [TokenKind.isTrivia]

theorem Access.name_ne_empty {text : List Char} (access : Access (lexemes text)) :
    access.name ≠ "" := by
  have listed : ⟨.ident, access.name.toList⟩ ∈ lexemes text :=
    access.whole.symm.subst (mem_append_right _ mem_cons_self)
  have present := (splits_lexemes text).ne_nil listed
  intro empty
  rw [empty] at present
  exact present rfl

theorem blockNamed?_of_mem {block : Binding} {name : String} (listed : block ∈ context.bindings)
    (kind : block.kind ≠ .sampler) (named : block.instanceName = some name) (present : name ≠ "") :
    ∃ last, context.blockNamed? name = some last := by
  have kept : block ∈ context.bindings.filter fun binding =>
      binding.kind != .sampler && binding.instanceName == some name && !name.isEmpty := by
    simp [listed, kind, named, present]
  exact ⟨_, getLast?_eq_some_getLast (ne_nil_of_mem kept)⟩

/-- An access to a block member that is left in a lowered source goes over the end of a line,
or its name stands for another block that has no such member. -/
theorem lower_access_left {context : Context} {source : String}
    (lowerable : Lowerable context source)
    (access : Access (lexemes (lower context source).value.toList)) {block : Binding}
    (listed : block ∈ context.bindings) (kind : block.kind ≠ .sampler)
    (named : block.instanceName = some access.name) (held : access.member ∈ block.memberNames) :
    access.crossesLine = true ∨
      ∃ other, other ≠ block ∧ context.blockNamed? access.name = some other ∧
        access.member ∉ other.memberNames := by
  obtain ⟨other, counts⟩ := blockNamed?_of_mem listed kind named access.name_ne_empty
  cases onLine : access.crossesLine with
  | true => exact .inl rfl
  | false =>
    have missing : access.member ∉ other.memberNames := by
      intro found
      have inline := List.forall_mem_append.mp (access.inline onLine)
      exact lower_flat lowerable access.before _ access.whole access.free access.member
        access.after (.intro counts found inline.1 inline.2)
    grind

def paramsBlock (typeName : String) (members : List String) : Binding where
  kind := .uniformBlock
  set := 0
  slot := none
  typeName
  instanceName := some "params"
  members := members.map fun name => ⟨"float", name, ""⟩
  start := 0
  stop := 0

def sharedName : Context where
  bindings := [paramsBlock "Frame" ["speed"], paramsBlock "Style" ["tint"]]
  parameterNames := []
  globals := []
  parameterPrefix := "PARAM_"

def sharedSource : String :=
  "float a = params.speed;\nfloat b = params.tint;\n"

def shadowedAccess : Access (lexemes (lower sharedName sharedSource).value.toList) where
  before := lexemes "uniform float tint;\nfloat a = ".toList
  name := "params"
  gap := []
  innerGap := []
  member := "speed"
  after := lexemes ";\nfloat b = tint;\n".toList
  whole := by decide +kernel
  trivia := nofun
  free := by decide +kernel

theorem lower_access_left_shadowed :
    Lowerable sharedName sharedSource ∧ shadowedAccess.crossesLine = false ∧
      ∃ other, other ≠ paramsBlock "Frame" ["speed"] ∧
        sharedName.blockNamed? "params" = some other ∧ "speed" ∉ other.memberNames := by
  have lowerable : Lowerable sharedName sharedSource :=
    { names := ⟨.inr (by decide), by decide +kernel⟩
      apart := by decide +kernel
      drops := by decide +kernel
      stands := .inr (by decide +kernel)
      wellFormed := by decide +kernel }
  have block : paramsBlock "Frame" ["speed"] ∈ sharedName.bindings := List.mem_cons_self
  have left := lower_access_left lowerable shadowedAccess block (by decide) rfl
    (by decide +kernel)
  have onLine : shadowedAccess.crossesLine = false := rfl
  rw [onLine] at left
  exact ⟨lowerable, onLine, left.resolve_left nofun⟩

end WebShader.Lowering
