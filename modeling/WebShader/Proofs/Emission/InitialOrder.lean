import WebShader.Proofs.Emission.Prologue

/-!
Contract: the order of the statements that initialize globals in `main`.

Owns: the passes that give such statements, the order that they put them in, and
what is left of it in an emitted stage.

The statements of one pass are in the order of declaration. Those of an earlier
pass come first, whatever the order of declaration.
-/

namespace WebShader.Emission

open List Text

/-- Where a statement that initializes a global comes from: a uniform that is
copied, the channel of the global, or the declaration of the global. -/
inductive Pass where
  | copied
  | carried
  | hoisted
  deriving DecidableEq, Repr

def Pass.rank : Pass → Nat
  | .copied => 0
  | .carried => 1
  | .hoisted => 2

/-- A statement that initializes the global of a name. -/
structure Initialization where
  name : String
  pass : Pass
  statement : String
  deriving DecidableEq, Repr

def Move.initialization (move : Move) : Initialization :=
  ⟨move.target.name, .hoisted, move.assignment⟩

/-! Order. -/

/-- The pass counts first, and the place of the declaration second. -/
def Initialization.Precedes (names : List String) (first second : Initialization) : Prop :=
  first.pass.rank < second.pass.rank ∨
    first.pass.rank = second.pass.rank ∧ names.idxOf first.name < names.idxOf second.name

theorem pairwise_idxOf {names : List String} (distinct : names.Nodup) :
    names.Pairwise fun first second => names.idxOf first < names.idxOf second := by
  grind [pairwise_iff_getElem]

/-- The statements of one pass precede each other in the order of declaration. -/
theorem pairwise_precedes {names : List String} (distinct : names.Nodup)
    {initializations : List Initialization} {pass : Pass}
    (same : ∀ initialization ∈ initializations, initialization.pass = pass)
    (declared : (initializations.map Initialization.name).Sublist names) :
    initializations.Pairwise (Initialization.Precedes names) := by
  have inOrder := pairwise_map.mp ((pairwise_idxOf distinct).sublist declared)
  refine inOrder.imp_of_mem ?_
  intro first second firstListed secondListed before
  exact .inr ⟨by grind, before⟩

/-- Of two statements, one that initializes an earlier global comes first exactly
if its pass is not a later one. -/
theorem sublist_pair_iff {names : List String} {prologue : List Initialization}
    (ordered : prologue.Pairwise (Initialization.Precedes names)) {first second : Initialization}
    (firstListed : first ∈ prologue) (secondListed : second ∈ prologue)
    (declared : names.idxOf first.name < names.idxOf second.name) :
    [first, second].Sublist prologue ↔ first.pass.rank ≤ second.pass.rank := by
  constructor
  · intro inOrder
    have precedes := rel_of_pairwise_cons (ordered.sublist inOrder) (mem_singleton_self _)
    rcases precedes with earlier | ⟨same, -⟩
    · exact Nat.le_of_lt earlier
    · exact Nat.le_of_eq same
  · intro notLater
    obtain ⟨front, back, rfl⟩ := append_of_mem secondListed
    obtain ⟨-, behind, -⟩ := pairwise_append.mp ordered
    rcases mem_append.mp firstListed with inFront | inBack
    · grind
    · rcases mem_cons.mp inBack with rfl | later
      · exact absurd declared (Nat.lt_irrefl _)
      · rcases rel_of_pairwise_cons behind later with earlier | ⟨-, before⟩
        · exact absurd notLater (Nat.not_le.mpr earlier)
        omega

/-! Statements in `main`. -/

theorem eraseDups_sublist (stmts : List String) : stmts.eraseDups.Sublist stmts := by
  induction size : stmts.length using Nat.strongRecOn generalizing stmts with
  | ind _ ih =>
    cases stmts with
    | nil => exact List.Sublist.refl _
    | cons first rest =>
      have shorter : (rest.filter fun other => !other == first).length <
          (first :: rest).length := Nat.lt_succ_of_le (length_filter_le _ _)
      rw [eraseDups_cons]
      exact ((ih _ (size ▸ shorter) _ rfl).trans filter_sublist).cons_cons first

theorem missingStatements_sublist (body : String) (stmts : List String) :
    (missingStatements body stmts).Sublist stmts :=
  (eraseDups_sublist _).trans filter_sublist

/-- What becomes of initializations in a source: the body of `main` starts with
those that it does not hold, and without a `main` they are lost. -/
structure Opens (indent stripped : String) (exit : List String) (all prologue : List Initialization)
    (injected : String) : Prop where
  inserted : prologue.Sublist all
  lost : main? stripped = none → prologue = [] ∧ injected = stripped
  placed : ∀ main, main? stripped = some main → ∃ cut : BodyCut stripped main,
    injected = cut.before ++ "\x7b" ++
        (statementLines indent (prologue.map Initialization.statement) ++
          endedBody indent exit cut.inside) ++ "\x7d" ++ cut.after ∧
      ∀ initialization ∈ all, initialization.statement ∈ prologue.map Initialization.statement ↔
          holds (endedBody indent exit cut.inside) initialization.statement = false

theorem injectMain_opens {indent : Int} {exit : List String} {stripped injected : String}
    {all : List Initialization}
    (returned : (injectMain indent (all.map Initialization.statement) exit stripped).run.value =
      .ok injected) :
    ∃ prologue, Opens (indentation indent) stripped exit all prologue injected := by
  cases found : main? stripped with
  | none =>
    refine ⟨[], nil_sublist _, fun _ => ⟨rfl, injectMain_none found returned⟩, ?_⟩
    grind
  | some main =>
    obtain ⟨cut⟩ := main?_cut found
    obtain ⟨prologue, inserted, stmts⟩ := sublist_map_iff.mp (missingStatements_sublist
      (endedBody (indentation indent) exit cut.inside) (all.map Initialization.statement))
    refine ⟨prologue, inserted, ?_, ?_⟩
    · grind
    · intro other present
      rw [found] at present
      cases present
      refine ⟨cut, ?_, ?_⟩
      · rw [injectMain_some found cut returned, extendBody_eq, stmts]
      grind [mem_missingStatements]

/-! Stages. -/

/-- How a stage with given initializations comes to its text, and what its `main` starts with. -/
inductive EmitsWith (options : Options) (indent : Int) (globals : List GlobalVariable)
    (program : StageProgram) (given prologue : List Initialization) (text : String) : Prop where
  | intro {stripped injected : String} {moves : List Move}
      (entry : program.entry = given.map Initialization.statement)
      (hoists : Hoists (stageBody program) globals stripped moves)
      (opens : Opens (indentation indent) stripped program.exit
        (given ++ moves.map Move.initialization) prologue injected)
      (final : text = header options (extensionLines program.source) ++
        tidyLines (if options.modern then injected
          else (toLegacy program.stage injected).value) ++ "\n")

section Stages

variable {options : Options} {indent : Int} {globals : List GlobalVariable}
  {program : StageProgram} {given prologue : List Initialization} {text : String}

theorem emit_emitsWith (emitted : (emit options indent globals program).run.value = .ok text)
    (entry : program.entry = given.map Initialization.statement) :
    ∃ prologue, EmitsWith options indent globals program given prologue text := by
  obtain ⟨stripped, moves, injected, hoists, injection, final⟩ := emit_parts emitted
  have stmts : program.entry ++ moves.map Move.assignment =
      (given ++ moves.map Move.initialization).map Initialization.statement := by
    rw [entry, map_append, map_map]
    rfl
  rw [stmts] at injection
  obtain ⟨prologue, opens⟩ := injectMain_opens injection
  exact ⟨prologue, .intro entry hoists opens final⟩

/-- Moved values are those of globals in the order of declaration. -/
theorem Hoists.targets {source stripped : String} {moves : List Move}
    (hoists : Hoists source globals stripped moves) :
    (moves.map Move.target).Sublist globals := by
  induction hoists with
  | done => exact List.Sublist.refl _
  | stays _ _ ih => exact ih.cons _
  | moves _ _ _ ih => exact ih.cons_cons _

theorem EmitsWith.ordered (emits : EmitsWith options indent globals program given prologue text)
    (distinct : (globals.map GlobalVariable.name).Nodup)
    (inOrder : given.Pairwise (Initialization.Precedes (globals.map GlobalVariable.name)))
    (early : ∀ initialization ∈ given, initialization.pass ≠ .hoisted) :
    prologue.Pairwise (Initialization.Precedes (globals.map GlobalVariable.name)) := by
  obtain ⟨entry, hoists, opens, final⟩ := emits
  refine List.Pairwise.sublist opens.inserted (pairwise_append.mpr ⟨inOrder, ?_, ?_⟩)
  · refine @pairwise_precedes _ distinct _ .hoisted ?_ ?_
    · intro initialization listed
      obtain ⟨move, -, rfl⟩ := mem_map.mp listed
      rfl
    · have names := hoists.targets.map GlobalVariable.name
      rw [map_map] at names ⊢
      exact names
  · intro first firstGiven second secondMoved
    obtain ⟨move, -, rfl⟩ := mem_map.mp secondMoved
    have notHoisted := early first firstGiven
    left
    cases pass : first.pass with
    | hoisted => exact absurd pass notHoisted
    | copied | carried => simp [Pass.rank, Move.initialization]

end Stages

end WebShader.Emission
