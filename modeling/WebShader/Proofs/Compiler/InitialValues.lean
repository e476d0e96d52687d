import WebShader.Proofs.Compiler.Independence
import WebShader.Proofs.Emission.InitialOrder

/-!
Contract: the order in which a compiled shader initializes its globals.

Owns: the initializations that lowering and carrying give to a stage, and the
order of all initializations at the start of `main`.

Does not own: the order within an emitted stage; that is `Emission.InitialOrder`.

Copies of uniforms come first, then the statements of channels, then the initial
values that leave their declarations. So an initial value that is stored in a
channel is computed before a global that keeps its own assignment is set, even
if it mentions that global.
-/

namespace WebShader

open List Sharing

open Emission (Initialization Pass)

variable {registry : ChannelRegistry} {initialization : Initialization} {context : Lowering.Context}
  {options : Options} {session : Session} {stages : Sharing.StagePair} {stage : Stage}

/-! Statements that are added once. -/

/-- Statements that are added, each unless it is there. -/
theorem exists_added (given : List Initialization) (stmts : List String) :
    ∃ kept : List Initialization, kept.Sublist given ∧
      (given.map Initialization.statement).foldl addStatement stmts =
        stmts ++ kept.map Initialization.statement := by
  induction given generalizing stmts with
  | nil => exact ⟨[], List.Sublist.refl _, by simp⟩
  | cons first rest ih =>
    rw [map_cons, foldl_cons, addStatement]
    split
    · obtain ⟨kept, listed, added⟩ := ih stmts
      exact ⟨kept, listed.cons first, added⟩
    · obtain ⟨kept, listed, added⟩ := ih (stmts ++ [first.statement])
      exact ⟨first :: kept, listed.cons_cons first, by simp [added]⟩

/-- Names that a selection takes over are in the order of the list. -/
theorem map_filterMap_sublist {α : Type} {items : List α} {name : α → String}
    {select : α → Option Initialization}
    (named : ∀ item found, select item = some found → found.name = name item) :
    ((items.filterMap select).map Initialization.name).Sublist (items.map name) := by
  induction items with
  | nil => exact List.Sublist.refl _
  | cons item rest ih => grind

/-! Copies of uniforms. -/

namespace Lowering

open Sharing

def copies (context : Context) (lowered : String) : List Initialization :=
  context.globalTable.filterMap fun entry =>
    (entryAssignment? context (declaredUniforms lowered) (Token.references lowered) entry.1
      entry.2).map (⟨entry.1, .copied, ·⟩)

theorem pass_of_mem_copies {lowered : String} (listed : initialization ∈ copies context lowered) :
    initialization.pass = .copied := by
  obtain ⟨entry, -, selects⟩ := mem_filterMap.mp listed
  obtain ⟨stmt, -, rfl⟩ := Option.map_eq_some_iff.mp selects
  rfl

theorem map_statement_copies (context : Context) (lowered : String) :
    (copies context lowered).map Initialization.statement = entryAssignments context lowered := by
  rw [copies, map_filterMap]
  congr 1
  funext entry
  rw [Option.map_map]
  exact Option.map_id'

theorem put_of_not_mem {α : Type} {key : String} {entries : List (String × α)} (value : α)
    (absent : key ∉ entries.map Prod.fst) :
    Assoc.put key value entries = entries ++ [(key, value)] := by
  induction entries with
  | nil => rfl
  | cons entry rest ih => simp_all [Assoc.put, Ne.symm]

/-- Globals of distinct names are in the table in the order of declaration. -/
theorem globalTable_keys (distinct : (context.globals.map GlobalVariable.name).Nodup) :
    context.globalTable.map Prod.fst = context.globals.map GlobalVariable.name := by
  have fold : ∀ (globals : List GlobalVariable) (entries : List (String × GlobalVariable)),
      (entries.map Prod.fst ++ globals.map GlobalVariable.name).Nodup →
        (globals.foldl (fun entries global => Assoc.put global.name global entries) entries).map
          Prod.fst = entries.map Prod.fst ++ globals.map GlobalVariable.name := by
    intro globals
    induction globals with
    | nil => simp
    | cons first rest ih =>
      grind [put_of_not_mem]
  exact fold context.globals [] distinct

theorem names_copies (lowered : String) (distinct : (context.globals.map GlobalVariable.name).Nodup) :
    ((copies context lowered).map Initialization.name).Sublist
      (context.globals.map GlobalVariable.name) := by
  rw [← globalTable_keys distinct]
  apply map_filterMap_sublist
  simp

/-- A stage that is lowered gets its copies. -/
theorem lowerStage_entry {start : StageProgram} (empty : start.entry = []) :
    ∃ kept : List Initialization,
      kept.Sublist (copies context (lowerStage context start).value.source) ∧
      (lowerStage context start).value.entry = kept.map Initialization.statement := by
  have unfolds : (lowerStage context start).value.entry =
      (entryAssignments context (lowerStage context start).value.source).foldl
        addStatement start.entry := rfl
  obtain ⟨kept, listed, added⟩ :=
    exists_added (copies context (lowerStage context start).value.source) []
  grind [map_statement_copies]

end Lowering

/-! Statements of channels. -/

namespace Sharing

open Sharing

/-- The statement by which a turn initializes its global in a stage: the vertex
stage stores the initial value of a channel, and the fragment stage receives a
global that both stages write. -/
def Turn.given? (turn : Turn) : Stage → Option String
  | .vertex => turn.initialStatement?
  | .fragment =>
    if turn.target.sharing == .vertexChannel then none
    else some (turn.target.name ++ " = " ++ turn.channel.read ++ ";")

def initializations (stage : Stage) (turns : List Turn) : List Initialization :=
  turns.filterMap fun turn => (turn.given? stage).map (⟨turn.target.name, .carried, ·⟩)

theorem pass_of_mem_initializations {turns : List Turn}
    (listed : initialization ∈ initializations stage turns) : initialization.pass = .carried := by
  obtain ⟨turn, -, selects⟩ := mem_filterMap.mp listed
  obtain ⟨stmt, -, rfl⟩ := Option.map_eq_some_iff.mp selects
  rfl

theorem map_statement_initializations (stage : Stage) (turns : List Turn) :
    (initializations stage turns).map Initialization.statement =
      turns.filterMap (Turn.given? · stage) := by
  rw [initializations, map_filterMap]
  congr 1
  funext turn
  rw [Option.map_map]
  exact Option.map_id'

theorem Turn.entry {turn : Turn} {modern : Bool} {later : StagePair}
    (finishes : turn.result modern = .ok later) (stage : Stage) :
    (later.program stage).entry =
      (turn.given? stage).toList.foldl addStatement (turn.stages.program stage).entry := by
  rw [Turn.result] at finishes
  split at finishes
  next shared =>
    obtain ⟨-, -, entry, -, fragmentEntry, -⟩ := becomeChannel_ok finishes
    cases stage with
    | vertex =>
      rw [Turn.given?, Turn.initialStatement?, if_pos shared]
      show later.vertex.entry = _
      rw [entry]
      cases turn.target.initializer <;> rfl
    | fragment =>
      rw [Turn.given?, if_pos shared]
      exact fragmentEntry
  next notShared =>
    obtain ⟨received, -, vertex, fragment⟩ := handOver_ok finishes
    cases stage with
    | vertex =>
      rw [Turn.given?, Turn.initialStatement?, if_neg notShared]
      show later.vertex.entry = _
      rw [vertex]
      rfl
    | fragment =>
      rw [Turn.given?, if_neg notShared]
      show later.fragment.entry = _
      rw [fragment]
      rfl

theorem run_entry {modern : Bool} {stages result : StagePair} {last : ChannelRegistry}
    {listed : List Turn} (runs : Runs modern stages registry listed result last) (stage : Stage) :
    (result.program stage).entry =
      (listed.filterMap (Turn.given? · stage)).foldl addStatement (stages.program stage).entry := by
  induction runs with
  | nil => rfl
  | @cons turn _ _ _ _ _ _ _ turned _ ih => grind [Turn.entry]

theorem targets_turns (modern : Bool) (stages : StagePair) (registry : ChannelRegistry)
    (globals : List GlobalVariable) :
    ((turns modern stages registry globals).map Turn.target).Sublist globals := by
  induction globals generalizing stages registry with
  | nil => exact List.Sublist.refl _
  | cons target rest ih =>
    rw [turns]
    split
    · refine List.Sublist.cons_cons _ ?_
      split
      · exact ih _ _
      · exact nil_sublist _
    · exact (ih _ _).cons _

theorem names_initializations (stage : Stage) (modern : Bool) (stages : StagePair)
    (registry : ChannelRegistry) (globals : List GlobalVariable) :
    ((initializations stage (turns modern stages registry globals)).map
      Initialization.name).Sublist (globals.map GlobalVariable.name) := by
  have targets := (targets_turns modern stages registry globals).map GlobalVariable.name
  rw [map_map] at targets
  refine (map_filterMap_sublist ?_).trans targets
  simp

end Sharing

/-! Shaders. -/

namespace Shader

open Sharing

def earlyInitializations (options : Options) (prepared : Prepared) (registry : ChannelRegistry)
    (stage : Stage) : List Initialization :=
  Lowering.copies prepared.context (prepared.stages.program stage).source ++
    initializations stage
      (turns options.modern prepared.stages registry prepared.globals)

def coerced (context : String) (initialization : Initialization) : Initialization :=
  { initialization with statement := (Coercion.coerce context initialization.statement).value }

section Early

variable {options : Options} {prepared : Prepared} {registry : ChannelRegistry} {stage : Stage}

theorem early_pass (listed : initialization ∈ earlyInitializations options prepared registry stage) :
    initialization.pass ≠ .hoisted := by
  rcases mem_append.mp listed with copied | carried
  · rw [Lowering.pass_of_mem_copies copied]
    decide
  · rw [pass_of_mem_initializations carried]
    decide

theorem early_ordered (wellFormed : prepared.WellFormed) (options : Options)
    (registry : ChannelRegistry) (stage : Stage) :
    (earlyInitializations options prepared registry stage).Pairwise
      (Initialization.Precedes (prepared.globals.map GlobalVariable.name)) := by
  refine pairwise_append.mpr ⟨?_, ?_, ?_⟩
  · refine Emission.pairwise_precedes wellFormed.distinct (fun _ => Lowering.pass_of_mem_copies) ?_
    rw [← wellFormed.declared]
    exact Lowering.names_copies _ (wellFormed.declared ▸ wellFormed.distinct)
  · exact Emission.pairwise_precedes wellFormed.distinct
      (fun _ => pass_of_mem_initializations) (names_initializations ..)
  · intro first copied second carried
    left
    rw [Lowering.pass_of_mem_copies copied, pass_of_mem_initializations carried]
    decide

theorem early_entry (wellFormed : prepared.WellFormed) {between : Session}
    (carries : Compilation.Finishes (prepared.globals.foldlM (carry options.modern)
      prepared.stages) session stages between) (stage : Stage) :
    ∃ kept : List Initialization,
      kept.Sublist (earlyInitializations options prepared session.channels stage) ∧
        (stages.program stage).entry = kept.map Initialization.statement := by
  obtain ⟨start, empty, lowers⟩ := wellFormed.lowered stage
  obtain ⟨copied, copiedListed, copiedEntry⟩ :=
    @Lowering.lowerStage_entry prepared.context start empty
  rw [lowers] at copiedListed copiedEntry
  obtain ⟨carried, carriedListed, added⟩ := exists_added
    (initializations stage (turns options.modern prepared.stages session.channels
      prepared.globals)) (copied.map Initialization.statement)
  refine ⟨copied ++ carried, copiedListed.append carriedListed, ?_⟩
  rw [run_entry (runs_turns carries).1 stage, copiedEntry, ← map_statement_initializations, added,
    map_append]

end Early

theorem coerceStatements_value (context : String) (stmts : List String) :
    (coerceStatements context stmts).value =
      stmts.map fun stmt => (Coercion.coerce context stmt).value := by
  induction stmts with
  | nil => rfl
  | cons first rest ih =>
    exact congrArg ((Coercion.coerce context first).value :: ·) ih

theorem coerceStage_entry {program : StageProgram} {given : List Initialization}
    (entry : program.entry = given.map Initialization.statement) :
    (coerceStage program).value.entry =
      (given.map (coerced (coerceStage program).value.source)).map Initialization.statement := by
  have unfolds : (coerceStage program).value.entry =
      (coerceStatements (coerceStage program).value.source program.entry).value := rfl
  rw [unfolds, coerceStatements_value, entry, map_map, map_map]
  rfl

theorem emitStages_ok {globals : List GlobalVariable} {texts : String × String}
    (annotations : Annotations)
    (returned : (emitStages options globals stages).run.value = .ok texts) (stage : Stage) :
    (Emission.emit options statementIndent globals
      (coerceStage (stages.program stage)).value).run.value =
        .ok ((ofTexts annotations texts).text stage) := by
  obtain ⟨vertex, coercesVertex, returned⟩ := bind_value_ok returned
  obtain ⟨fragment, coercesFragment, returned⟩ := bind_value_ok returned
  obtain ⟨vertexText, emitsVertex, returned⟩ := bind_value_ok returned
  obtain ⟨fragmentText, emitsFragment, returned⟩ := bind_value_ok returned
  cases returned
  cases coercesVertex
  cases coercesFragment
  cases stage with
  | vertex => exact emitsVertex
  | fragment => exact emitsFragment

theorem compile_finishes {source : String} {final : Session} {shader : Shader}
    (compiles : Compilation.Finishes (compile options source) session shader final) :
    ∃ prepared stages between texts, (prepare options source).run.value = .ok prepared ∧
      Compilation.Finishes (prepared.globals.foldlM (carry options.modern)
        prepared.stages) session stages between ∧
      (emitStages options prepared.globals stages).run.value = .ok texts ∧
      shader = ofTexts prepared.annotations texts := by
  rw [compile_eq] at compiles
  obtain ⟨prepared, first, prepares, afterPreparing⟩ := compiles.bind
  obtain ⟨returned, rfl⟩ := prepares.ofChecked
  obtain ⟨stages, between, carries, afterCarrying⟩ := afterPreparing.bind
  obtain ⟨texts, last, emits, afterEmitting⟩ := afterCarrying.bind
  obtain ⟨emitted, rfl⟩ := emits.ofChecked
  obtain ⟨_, _, _, finishes⟩ := afterEmitting.bind
  obtain ⟨rfl, -⟩ := finishes.pure
  grind

/-- The initializations that `main` starts with in a stage of which globals are
carried. Before it is emitted, it has a part of the early ones. -/
inductive StartsWith (options : Options) (prepared : Prepared) (registry : ChannelRegistry)
    (stages : Sharing.StagePair) (stage : Stage) (prologue : List Initialization) (text : String) :
    Prop where
  | intro {given : List Initialization}
      (early : given.Sublist ((earlyInitializations options prepared registry stage).map
        (coerced (coerceStage (stages.program stage)).value.source)))
      (emits : Emission.EmitsWith options statementIndent prepared.globals
        (coerceStage (stages.program stage)).value given prologue text)

theorem StartsWith.ordered {prepared : Prepared} {prologue : List Initialization} {text : String}
    (starts : StartsWith options prepared registry stages stage prologue text)
    (wellFormed : prepared.WellFormed) :
    prologue.Pairwise (Initialization.Precedes (prepared.globals.map GlobalVariable.name)) := by
  obtain ⟨early, emits⟩ := starts
  refine emits.ordered wellFormed.distinct ?_ ?_
  · exact List.Pairwise.sublist early
      (pairwise_map.mpr (early_ordered wellFormed options registry stage))
  · intro initialization listed
    obtain ⟨original, originalListed, rfl⟩ := mem_map.mp (early.subset listed)
    exact show original.pass ≠ .hoisted from early_pass originalListed

/-- The initial values of a compiled shader. In each stage, `main` starts with
the statements that initialize globals: copies of uniforms, statements of
channels, and initial values that leave their declarations. If one global is
declared before another, its statement comes first exactly if it is of the same
kind or an earlier one. -/
theorem compile_initializes_in_order {options : Options} {source : String}
    {session final : Session} {shader : Shader}
    (compiles : Compilation.Finishes (compile options source) session shader final) :
    ∃ prepared stages between, (prepare options source).run.value = .ok prepared ∧
      Compilation.Finishes (prepared.globals.foldlM (carry options.modern)
        prepared.stages) session stages between ∧
      ∀ stage, ∃ prologue,
        StartsWith options prepared session.channels stages stage prologue (shader.text stage) ∧
        ∀ first ∈ prologue, ∀ second ∈ prologue,
          (prepared.globals.map GlobalVariable.name).idxOf first.name <
              (prepared.globals.map GlobalVariable.name).idxOf second.name →
            ([first, second].Sublist prologue ↔ first.pass.rank ≤ second.pass.rank) := by
  obtain ⟨prepared, stages, between, texts, prepares, carries, emits, rfl⟩ :=
    compile_finishes compiles
  have wellFormed := prepare_wellFormed prepares
  refine ⟨prepared, stages, between, prepares, carries, fun stage => ?_⟩
  obtain ⟨kept, keptListed, entry⟩ := early_entry wellFormed carries stage
  have emitted := emitStages_ok prepared.annotations emits stage
  obtain ⟨prologue, emitsWith⟩ := Emission.emit_emitsWith emitted (coerceStage_entry entry)
  have starts : StartsWith options prepared session.channels stages stage prologue _ :=
    .intro (keptListed.map _) emitsWith
  refine ⟨prologue, starts, ?_⟩
  intro first firstListed second secondListed declared
  exact Emission.sublist_pair_iff (starts.ordered wellFormed) firstListed secondListed declared

/-- A channel that is set before the global that it starts as. -/
theorem compile_initializes_in_order_channelFirst :
    ∃ shader final,
      Compilation.Finishes (compile {} earlySource) (.fresh "v_") shader final ∧
      (shader.vertex, shader.fragment) = earlyTexts ∧
      ∃ prepared stages, (prepare {} earlySource).run.value = .ok prepared ∧
        ∀ stage, ∃ prologue,
          StartsWith {} prepared (Session.fresh "v_").channels stages stage prologue
            (shader.text stage) ∧
          ∀ first ∈ prologue, ∀ second ∈ prologue,
            (prepared.globals.map GlobalVariable.name).idxOf first.name <
                (prepared.globals.map GlobalVariable.name).idxOf second.name →
              ([first, second].Sublist prologue ↔ first.pass.rank ≤ second.pass.rank) := by
  obtain ⟨⟨shader, returned, texts⟩, -⟩ := compileOwn_early
  obtain ⟨final, compiles⟩ := finishes_fresh_iff.mpr returned
  obtain ⟨prepared, stages, -, prepares, -, ordered⟩ := compile_initializes_in_order compiles
  exact ⟨shader, final, compiles, texts, prepared, stages, prepares, ordered⟩

end Shader

end WebShader
