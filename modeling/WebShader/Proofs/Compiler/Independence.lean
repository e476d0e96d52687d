import Mathlib.Data.List.Nodup
import WebShader.Compiler.Shader
import WebShader.Proofs.Sharing.Carrying

/-!
Contract: sharing a session does not change what a shader compiles to.

Owns: the parts of a compilation, of which one alone uses the session, the
channel that a global gets wherever its name has one type, sessions
that hold such channels only, and the independence of compilations from what
was compiled before them.

Does not own: sessions in which a name is carried with two types; there the
second type gets another channel.
-/

namespace WebShader.Preamble

open List

def HasDistinctGlobals (preamble : Preamble) : Prop :=
  (preamble.globals.map GlobalVariable.name).Nodup

theorem addGlobal_distinct (claimed : List String) (typeName : String) (preamble : Preamble)
    (decl : Declarator) (distinct : preamble.HasDistinctGlobals) :
    (addGlobal claimed typeName preamble decl).value.HasDistinctGlobals := by
  rw [addGlobal]
  split
  · exact distinct
  next absent =>
    rw [Noted.value_pure, HasDistinctGlobals, map_append]
    refine nodup_append.mpr ⟨distinct, by simp, ?_⟩
    grind

theorem addConst_distinct (claimed : List String) (preamble : Preamble) (declaration : Declaration)
    (distinct : preamble.HasDistinctGlobals) :
    (addConst claimed preamble declaration).value.HasDistinctGlobals := by
  have added := foldlM_keeps (addGlobal_distinct claimed declaration.typeName)
    (declaration.declarators.filter fun decl => claimed.contains decl.name) distinct
  simp only [addConst]
  split
  · exact added
  · exact added

theorem addStatement_distinct (source : String) (claimed : List String) (preamble : Preamble)
    (stmt : List Token) (distinct : preamble.HasDistinctGlobals) :
    (addStatement source claimed preamble stmt).value.HasDistinctGlobals := by
  rw [addStatement]
  split
  · exact distinct
  next decl _ =>
    split
    · exact addConst_distinct claimed preamble decl distinct
    · exact foldlM_keeps (addGlobal_distinct claimed decl.typeName) _ distinct

theorem ofSource_distinct {source : String} {claimed : List String} {preamble : Preamble}
    (returned : (ofSource source claimed).run.value = .ok preamble) :
    preamble.HasDistinctGlobals := by
  rw [ofSource] at returned
  split at returned
  · cases returned
    exact nodup_nil
  next text _ =>
    obtain ⟨defns, -, returned⟩ := bind_value_ok returned
    refine @foldlM_ok_keeps _ _ HasDistinctGlobals _ ?_ _ _ _ ?_ returned
    · intro state stmt next distinct steps
      cases steps
      exact addStatement_distinct text claimed state stmt distinct
    · exact nodup_nil

end WebShader.Preamble

namespace WebShader

/-! Computations that do not touch the session. -/

namespace Compilation

theorem ofChecked_bind {α β : Type} (first : ExceptT Fault Noted α)
    (next : α → ExceptT Fault Noted β) :
    ofChecked (first >>= next) = ofChecked first >>= fun value => ofChecked (next value) := by
  show ExceptT.mk (liftM (first >>= next).run) = ExceptT.mk _
  rw [ExceptT.run_bind]
  simp only [liftM_bind]
  refine congrArg ExceptT.mk (bind_congr fun outcome => ?_)
  cases outcome with
  | error fault => exact liftM_pure _
  | ok value => rfl

theorem ofChecked_pure {α : Type} (value : α) : ofChecked (pure value) = pure value := rfl

end Compilation

def Sharing.StagePair.program (stages : Sharing.StagePair) : Stage → StageProgram
  | .vertex => stages.vertex
  | .fragment => stages.fragment

namespace Shader

def text (shader : Shader) : Stage → String
  | .vertex => shader.vertex
  | .fragment => shader.fragment

/-- What is known of a shader before its globals are carried. -/
structure Prepared where
  annotations : Annotations
  context : Lowering.Context
  globals : List GlobalVariable
  stages : Sharing.StagePair

/-- The passes before globals are carried. -/
def prepare (options : Options) (source : String) : ExceptT Fault Noted Prepared := do
  let resolved ← Conditional.resolve options.predefinedMacros source
  let text := resolved.1
  let annotations ← Annotations.ofSource text
  let bindings ← Binding.table text
  let preamble ← Preamble.ofSource text (annotations.claimedNames ++ bindingMemberNames bindings)
  let split ← StageSplit.ofSource options text
  let stageOf (stage : Stage) (body : String) : StageProgram :=
    ⟨stage, assemble [split.preamble, preamble.render, body], [], []⟩
  let context : Lowering.Context :=
    { bindings
      parameterNames := annotations.parameters.map Parameter.name
      globals := preamble.globals
      parameterPrefix := options.parameterPrefix }
  let vertex ← Lowering.lowerStage context (stageOf .vertex split.vertex)
  let fragment ← Lowering.lowerStage context (stageOf .fragment split.fragment)
  let globals ← Sharing.classify options.parameterPrefix
    (preamble.constNames ++ preamble.macroNames) preamble.globals vertex.source fragment.source
  return ⟨annotations, context, globals, ⟨vertex, fragment⟩⟩

def emitStages (options : Options) (globals : List GlobalVariable) (stages : Sharing.StagePair) :
    ExceptT Fault Noted (String × String) := do
  let vertex ← coerceStage stages.vertex
  let fragment ← coerceStage stages.fragment
  let vertexText ← Emission.emit options statementIndent globals vertex
  let fragmentText ← Emission.emit options statementIndent globals fragment
  return (vertexText, fragmentText)

def ofTexts (annotations : Annotations) (texts : String × String) : Shader :=
  let uniforms := Lowering.declaredUniforms texts.1 ++ Lowering.declaredUniforms texts.2
  { vertex := texts.1
    fragment := texts.2
    parameters := annotations.parameters
    uniforms := namesWhere (!isSampler ·) uniforms
    samplers := namesWhere isSampler uniforms
    name := annotations.name
    format := annotations.format }

theorem compile_eq (options : Options) (source : String) :
    compile options source = (do
      let prepared ← Compilation.ofChecked (prepare options source)
      let stages ← prepared.globals.foldlM (Sharing.carry options.modern) prepared.stages
      let texts ← Compilation.ofChecked (emitStages options prepared.globals stages)
      modifyThe Session fun session => { session with compiledCount := session.compiledCount + 1 }
      return ofTexts prepared.annotations texts) := by
  simp only [compile, prepare, emitStages, ofTexts, Compilation.ofNoted, Compilation.ofChecked_bind,
    Compilation.ofChecked_pure, bind_assoc, pure_bind, Sharing.resolve]

/-- What preparing leaves: globals of distinct names in the order of declaration,
and stages that are lowered from sources without statements. -/
structure Prepared.WellFormed (prepared : Prepared) : Prop where
  distinct : (prepared.globals.map GlobalVariable.name).Nodup
  declared : prepared.context.globals.map GlobalVariable.name =
    prepared.globals.map GlobalVariable.name
  lowered : ∀ stage : Stage, ∃ start : StageProgram, start.entry = [] ∧
    (Lowering.lowerStage prepared.context start).value = prepared.stages.program stage

theorem prepare_wellFormed {options : Options} {source : String} {prepared : Prepared}
    (returned : (prepare options source).run.value = .ok prepared) : prepared.WellFormed := by
  obtain ⟨resolved, -, returned⟩ := bind_value_ok returned
  obtain ⟨annotations, -, returned⟩ := bind_value_ok returned
  obtain ⟨bindings, -, returned⟩ := bind_value_ok returned
  obtain ⟨preamble, collects, returned⟩ := bind_value_ok returned
  obtain ⟨split, -, returned⟩ := bind_value_ok returned
  obtain ⟨vertex, lowersVertex, returned⟩ := bind_value_ok returned
  obtain ⟨fragment, lowersFragment, returned⟩ := bind_value_ok returned
  obtain ⟨globals, classifies, returned⟩ := bind_value_ok returned
  cases returned
  have names := Sharing.map_name_classify classifies
  refine ⟨?_, names.symm, ?_⟩
  · rw [names]
    exact Preamble.ofSource_distinct collects
  · intro stage
    cases stage with
    | vertex => exact ⟨_, rfl, Except.ok.inj lowersVertex⟩
    | fragment => exact ⟨_, rfl, Except.ok.inj lowersFragment⟩

end Shader

end WebShader

namespace WebShader

open List

open Sharing

variable {target : GlobalVariable} {source : String}

/-! Channels. -/

/-- The channel of a global that shares its name with no global of another type. -/
def ownChannel (modern : Bool) (channelPrefix : String) (target : GlobalVariable) : Channel where
  baseName := target.name
  name := channelPrefix ++ target.name
  typeName := channelType modern target.typeName
  sourceType :=
    if target.typeName.isEmpty then channelType modern target.typeName else target.typeName

/-- Globals of one name have one type. -/
def OneType (carried : GlobalVariable → Prop) : Prop :=
  ∀ first second, carried first → carried second → first.name = second.name →
    first.typeName = second.typeName

/-- A registry that holds nothing but the own channels of some globals. -/
structure Settled (modern : Bool) (channelPrefix : String) (carried : GlobalVariable → Prop)
    (registry : ChannelRegistry) : Prop where
  named : registry.namePrefix = channelPrefix
  own : ∀ channel ∈ registry.channels,
    ∃ target, carried target ∧ channel = ownChannel modern channelPrefix target

theorem Settled.fresh (modern : Bool) (channelPrefix : String) (carried : GlobalVariable → Prop) :
    Settled modern channelPrefix carried (Session.fresh channelPrefix).channels :=
  ⟨rfl, fun _ mem => (not_mem_nil mem).elim⟩

theorem ownChannel_congr {first second : GlobalVariable} (modern : Bool) (channelPrefix : String)
    (names : first.name = second.name) (types : first.typeName = second.typeName) :
    ownChannel modern channelPrefix first = ownChannel modern channelPrefix second := by
  simp [ownChannel, names, types]

theorem freeName_of_not_mem {stem : String} {taken : List String} (free : stem ∉ taken) :
    ChannelRegistry.freeName stem 1 taken = stem := by
  rw [ChannelRegistry.freeName]
  simp [ChannelRegistry.candidate, free]

section Carrying

variable {modern : Bool} {channelPrefix : String} {carried : GlobalVariable → Prop}

/-- A global gets its own channel, whatever other globals have theirs already. -/
theorem channelFor_settled {registry : ChannelRegistry}
    (settled : Settled modern channelPrefix carried registry) (oneType : OneType carried)
    (mem : carried target) :
    ∃ others, registry.channelFor target.name (channelType modern target.typeName)
        target.typeName = (ownChannel modern channelPrefix target, others) ∧
      Settled modern channelPrefix carried others := by
  have same : ∀ channel ∈ registry.channels, channel.baseName = target.name →
      channel = ownChannel modern channelPrefix target := by
    intro channel listed named
    obtain ⟨other, otherCarried, rfl⟩ := settled.own channel listed
    exact ownChannel_congr modern channelPrefix named (oneType other target otherCarried mem named)
  rw [ChannelRegistry.channelFor]
  split
  next channel found =>
    have carries := find?_some found
    simp only [ChannelRegistry.carries] at carries
    grind
  next absent =>
    have free : channelPrefix ++ target.name ∉ registry.channels.map Channel.name := by
      intro taken
      obtain ⟨channel, listed, named⟩ := mem_map.mp taken
      have own : channel.baseName = target.name := by
        obtain ⟨other, -, rfl⟩ := settled.own channel listed
        exact (String.append_right_inj _).mp named
      have refuses := find?_eq_none.mp absent channel listed
      rw [same channel listed own] at refuses
      exact refuses (by simp [ChannelRegistry.carries, ownChannel])
    rw [settled.named, freeName_of_not_mem free]
    refine ⟨_, rfl, rfl, ?_⟩
    intro channel listed
    rcases mem_append.mp listed with old | new
    · exact settled.own channel old
    · exact ⟨target, mem, mem_singleton.mp new⟩

end Carrying

/-! Computations in settled sessions. -/

/-- The session makes no difference: from every settled session, a computation
comes to one result and leaves a settled session. -/
def Independent {α : Type} (modern : Bool) (channelPrefix : String)
    (carried : GlobalVariable → Prop) (computation : Compilation α) (result : Except Fault α) :
    Prop :=
  ∀ session : Session, Settled modern channelPrefix carried session.channels →
    ∃ after, outcome computation session = (result, after) ∧
      Settled modern channelPrefix carried after.channels

section Independent

variable {modern : Bool} {channelPrefix : String} {carried : GlobalVariable → Prop} {α β : Type}

theorem Independent.pure (value : α) :
    Independent modern channelPrefix carried (Pure.pure value) (.ok value) :=
  fun session settled => ⟨session, rfl, settled⟩

theorem Independent.ofChecked (checked : ExceptT Fault Noted α) :
    Independent modern channelPrefix carried (Compilation.ofChecked checked) checked.run.value :=
  fun session settled => ⟨session, rfl, settled⟩

theorem Independent.lift (value : Except Fault α) :
    Independent modern channelPrefix carried (liftM value) value := by
  intro session settled
  exact ⟨session, by cases value <;> rfl, settled⟩

theorem Independent.bind {first : Compilation α} {value : Except Fault α}
    {next : α → Compilation β} {nextValue : α → Except Fault β}
    (here : Independent modern channelPrefix carried first value)
    (later : ∀ found, value = .ok found →
      Independent modern channelPrefix carried (next found) (nextValue found)) :
    Independent modern channelPrefix carried (first >>= next) (value >>= nextValue) := by
  intro session settled
  obtain ⟨between, comes, settledBetween⟩ := here session settled
  cases value with
  | error fault => exact ⟨between, outcome_bind_error comes next, settledBetween⟩
  | ok found =>
    rw [outcome_bind_ok comes]
    exact later found rfl between settledBetween

def carryOwn (modern : Bool) (channelPrefix : String) (stages : StagePair)
    (target : GlobalVariable) : Except Fault StagePair :=
  if isCarried target then
    (⟨target, ownChannel modern channelPrefix target, stages⟩ : Turn).result modern
  else .ok stages

theorem independent_allocate (oneType : OneType carried) (mem : carried target) :
    Independent modern channelPrefix carried (carry.allocate modern target)
      (.ok (ownChannel modern channelPrefix target)) := by
  intro session settled
  obtain ⟨others, gives, settledAfter⟩ := channelFor_settled settled oneType mem
  refine ⟨{ session with channels := others }, ?_, settledAfter⟩
  have unfolds : outcome (carry.allocate modern target) session =
      (.ok (session.channels.channelFor target.name (channelType modern target.typeName)
          target.typeName).1,
        { session with channels := (session.channels.channelFor target.name
          (channelType modern target.typeName) target.typeName).2 }) := rfl
  rw [unfolds, gives]

theorem independent_carry (oneType : OneType carried)
    (mem : isCarried target → carried target) (stages : StagePair) :
    Independent modern channelPrefix carried (carry modern stages target)
      (carryOwn modern channelPrefix stages target) := by
  cases shared : target.sharing with
  | vertexChannel =>
    have here : isCarried target := by simp [isCarried, shared]
    rw [carry, carryOwn, if_pos here, Turn.result, shared]
    exact (independent_allocate oneType (mem here)).bind fun _ _ => .lift _
  | bothStages =>
    have here : isCarried target := by simp [isCarried, shared]
    rw [carry, carryOwn, if_pos here, Turn.result, shared]
    exact (independent_allocate oneType (mem here)).bind fun _ _ => .lift _
  | _ =>
    rw [carry, shared, carryOwn, if_neg (by simp [isCarried, shared])]
    exact .pure stages

theorem independent_foldlM_carry {globals : List GlobalVariable} (oneType : OneType carried)
    (members : ∀ target ∈ globals, isCarried target → carried target)
    (stages : StagePair) :
    Independent modern channelPrefix carried (globals.foldlM (carry modern) stages)
      (globals.foldlM (carryOwn modern channelPrefix) stages) := by
  induction globals generalizing stages with
  | nil => exact .pure stages
  | cons target rest ih =>
    refine (independent_carry oneType (members target mem_cons_self) stages).bind ?_
    grind

end Independent

/-! Shaders. -/

namespace Shader

/-- What a source compiles to if each global that is carried gets its own channel. -/
def compileOwn (options : Options) (channelPrefix source : String) : Except Fault Shader := do
  let prepared ← (prepare options source).run.value
  let stages ← prepared.globals.foldlM (carryOwn options.modern channelPrefix) prepared.stages
  let texts ← (emitStages options prepared.globals stages).run.value
  return ofTexts prepared.annotations texts

def carriedGlobals (options : Options) (source : String) : List GlobalVariable :=
  match (prepare options source).run.value with
  | .ok prepared => prepared.globals.filter isCarried
  | .error _ => []

theorem mem_carriedGlobals {options : Options} {prepared : Prepared}
    (prepares : (prepare options source).run.value = .ok prepared) :
    target ∈ carriedGlobals options source ↔ target ∈ prepared.globals ∧ isCarried target := by
  rw [carriedGlobals, prepares]
  exact mem_filter

/-- Globals of one source that become channels have one type for each name. -/
theorem carriedGlobals_oneType (options : Options) (source : String) :
    OneType (· ∈ carriedGlobals options source) := by
  intro first second firstListed secondListed named
  cases prepares : (prepare options source).run.value with
  | error fault =>
    rw [carriedGlobals, prepares] at firstListed
    cases firstListed
  | ok prepared =>
    have firstMember := ((mem_carriedGlobals prepares).mp firstListed).1
    have secondMember := ((mem_carriedGlobals prepares).mp secondListed).1
    have distinct := (prepare_wellFormed prepares).distinct
    rw [inj_on_of_nodup_map distinct firstMember secondMember named]

section Sources

variable {options : Options} {channelPrefix : String} {carried : GlobalVariable → Prop}

theorem independent_compile (oneType : OneType carried)
    (members : ∀ target ∈ carriedGlobals options source, carried target) :
    Independent options.modern channelPrefix carried (compile options source)
      (compileOwn options channelPrefix source) := by
  rw [compile_eq]
  refine (Independent.ofChecked _).bind fun prepared prepares => ?_
  have inside : ∀ target ∈ prepared.globals, isCarried target → carried target :=
    fun target listed here => members target ((mem_carriedGlobals prepares).mpr ⟨listed, here⟩)
  refine (independent_foldlM_carry oneType inside _).bind fun stages _ => ?_
  refine (Independent.ofChecked _).bind fun texts _ => ?_
  exact fun session settled =>
    ⟨{ session with compiledCount := session.compiledCount + 1 }, rfl, settled⟩

theorem independent_mapM_compile {sources : List String} (oneType : OneType carried)
    (members : ∀ source ∈ sources, ∀ target ∈ carriedGlobals options source, carried target) :
    Independent options.modern channelPrefix carried (sources.mapM (compile options))
      (sources.mapM (compileOwn options channelPrefix)) := by
  induction sources with
  | nil => exact .pure []
  | cons source rest ih =>
    rw [mapM_cons, mapM_cons]
    refine (independent_compile oneType (members source mem_cons_self)).bind fun shader _ => ?_
    refine (ih (forall_mem_cons.mp members).2).bind fun shaders _ => ?_
    exact .pure (shader :: shaders)

/-- In a fresh session every global that is carried gets its own channel. -/
theorem outcome_compile_fresh (options : Options) (channelPrefix source : String) :
    ∃ after, outcome (compile options source) (.fresh channelPrefix) =
      (compileOwn options channelPrefix source, after) := by
  obtain ⟨after, comes, -⟩ := independent_compile (carriedGlobals_oneType options source)
    (fun _ listed => listed) (.fresh channelPrefix) (Settled.fresh options.modern channelPrefix _)
  exact ⟨after, comes⟩

theorem finishes_fresh_iff {shader : Shader} :
    (∃ final, Compilation.Finishes (compile options source) (.fresh channelPrefix) shader final) ↔
      compileOwn options channelPrefix source = .ok shader := by
  obtain ⟨after, comes⟩ := outcome_compile_fresh options channelPrefix source
  constructor
  · rintro ⟨final, finishes⟩
    have same : outcome (compile options source) (.fresh channelPrefix) = (.ok shader, final) :=
      finishes
    grind
  · intro compiles
    rw [compiles] at comes
    exact ⟨after, comes⟩

end Sources

theorem mapM_ok {α β : Type} {step : α → Except Fault β} {result : α → β} {items : List α}
    (each : ∀ item ∈ items, step item = .ok (result item)) :
    items.mapM step = .ok (items.map result) := by
  induction items with
  | nil => rfl
  | cons item rest ih =>
    rw [mapM_cons, each item mem_cons_self, ih (forall_mem_cons.mp each).2]
    rfl

/-- Sharing a session does not change what a source compiles to. Let globals of
one name that become channels in different sources have one type. Then sources
compiled one after another in one session, in whatever order, come each to the
shader that a fresh session gives for it alone. -/
theorem compile_shared_session (options : Options) (channelPrefix : String) (sources : List String)
    (alone : String → Shader)
    (compiles : ∀ source ∈ sources, ∃ final,
      Compilation.Finishes (compile options source) (.fresh channelPrefix) (alone source) final)
    (oneType : ∀ first ∈ sources, ∀ second ∈ sources, first ≠ second →
      ∀ target ∈ carriedGlobals options first, ∀ other ∈ carriedGlobals options second,
        target.name = other.name → target.typeName = other.typeName)
    (order : List String) (permuted : order.Perm sources) :
    ∃ final, Compilation.Finishes (order.mapM (compile options)) (.fresh channelPrefix)
      (order.map alone) final := by
  have together : OneType fun target => ∃ source ∈ sources, target ∈ carriedGlobals options source := by
    rintro target other ⟨first, firstListed, inFirst⟩ ⟨second, secondListed, inSecond⟩ named
    by_cases same : first = second
    · subst same
      exact carriedGlobals_oneType options first target other inFirst inSecond named
    · grind
  have inside : ∀ source ∈ order, source ∈ sources := fun _ listed => permuted.mem_iff.mp listed
  obtain ⟨after, comes, -⟩ := independent_mapM_compile together
    (fun source listed target carried => ⟨source, inside source listed, carried⟩)
    (.fresh channelPrefix) (Settled.fresh options.modern channelPrefix _)
  refine ⟨after, ?_⟩
  have each : order.mapM (compileOwn options channelPrefix) = .ok (order.map alone) := by
    apply mapM_ok
    intro source listed
    exact finishes_fresh_iff.mp (compiles source (inside source listed))
  rw [each] at comes
  exact comes

/-- A source whose compilation is known part by part. -/
theorem compileOwn_of_parts {options : Options} {channelPrefix source : String}
    {globals : List GlobalVariable} {stages carried : StagePair} {texts : String × String}
    (prepares : ((prepare options source).run.value.toOption.map fun prepared =>
      (prepared.globals, prepared.stages)) = some (globals, stages))
    (carries : (globals.foldlM (carryOwn options.modern channelPrefix) stages).toOption =
      some carried)
    (emits : (emitStages options globals carried).run.value.toOption = some texts) :
    (∃ shader, compileOwn options channelPrefix source = .ok shader ∧
      (shader.vertex, shader.fragment) = texts) ∧
        carriedGlobals options source = globals.filter isCarried := by
  obtain ⟨prepared, returned, same⟩ := Option.map_eq_some_iff.mp prepares
  obtain ⟨rfl, rfl⟩ := Prod.mk.inj same
  rw [compileOwn, carriedGlobals, eq_ok_of_toOption returned, ok_bind,
    eq_ok_of_toOption carries, ok_bind, eq_ok_of_toOption emits]
  simp [ofTexts]

def passSource : String :=
  "float h;\n#pragma stage vertex\nvoid main()\x7bh=1;\x7d\n" ++
    "#pragma stage fragment\nvoid main()\x7bf(h);\x7d"

def passGlobals : List GlobalVariable :=
  [⟨"float", "h", none, "", false, .vertexChannel⟩]

def passStages : StagePair where
  vertex := ⟨.vertex, "float h;\n\nvoid main()\x7bh=1;\x7d\n", [], []⟩
  fragment := ⟨.fragment, "float h;\n\nvoid main()\x7bf(h);\x7d\n", [], []⟩

def passCarried : StagePair where
  vertex := ⟨.vertex, "out float v_h;\n\nvoid main()\x7bv_h=1;\x7d\n", [], []⟩
  fragment := ⟨.fragment, "in float v_h;\n\nvoid main()\x7bf(v_h);\x7d\n", [], []⟩

def passTexts : String × String :=
  ("#version 300 es\nprecision highp float;\nprecision highp int;\n\n" ++
      "out float v_h;\n\nvoid main()\x7bv_h=1.0;\x7d\n",
    "#version 300 es\nprecision highp float;\nprecision highp int;\n\n" ++
      "in float v_h;\n\nvoid main()\x7bf(v_h);\x7d\n")

theorem compileOwn_pass :
    (∃ shader, compileOwn {} "v_" passSource = .ok shader ∧
      (shader.vertex, shader.fragment) = passTexts) ∧
        carriedGlobals {} passSource = passGlobals.filter isCarried :=
  @compileOwn_of_parts _ _ _ passGlobals passStages passCarried _ (by decide +kernel)
    (by decide +kernel) (by decide +kernel)

/-- A source in which a global that becomes a channel starts as one that does not. -/
def earlySource : String :=
  "float g=s(1);\nfloat h=g;\n#pragma stage vertex\nvoid main()\x7bh+=1;\x7d\n" ++
    "#pragma stage fragment\nvoid main()\x7bf(h);\x7d"

def earlyGlobals : List GlobalVariable :=
  [⟨"float", "g", some "s(1)", "", false, .stageLocal⟩,
    ⟨"float", "h", some "g", "", false, .vertexChannel⟩]

def earlyStages : StagePair where
  vertex := ⟨.vertex, "float g = s(1);\nfloat h = g;\n\nvoid main()\x7bh+=1;\x7d\n", [], []⟩
  fragment := ⟨.fragment, "float g = s(1);\nfloat h = g;\n\nvoid main()\x7bf(h);\x7d\n", [], []⟩

def earlyCarried : StagePair where
  vertex := ⟨.vertex, "out float v_h;\nfloat g = s(1);\n\nvoid main()\x7bv_h+=1;\x7d\n",
    ["v_h = g;"], []⟩
  fragment := ⟨.fragment, "in float v_h;\nfloat g = s(1);\n\nvoid main()\x7bf(v_h);\x7d\n", [], []⟩

/-- The vertex stage reads `g` before it sets it. -/
def earlyTexts : String × String :=
  ("#version 300 es\nprecision highp float;\nprecision highp int;\n\n" ++
      "out float v_h;\nfloat g;\n\nvoid main()\x7b\n    v_h = g;\n    g = s(1.0);v_h+=1.0;\x7d\n",
    "#version 300 es\nprecision highp float;\nprecision highp int;\n\n" ++
      "in float v_h;\nfloat g;\n\nvoid main()\x7b\n    g = s(1.0);f(v_h);\x7d\n")

theorem compileOwn_early :
    (∃ shader, compileOwn {} "v_" earlySource = .ok shader ∧
      (shader.vertex, shader.fragment) = earlyTexts) ∧
        carriedGlobals {} earlySource = earlyGlobals.filter isCarried :=
  @compileOwn_of_parts _ _ _ earlyGlobals earlyStages earlyCarried _ (by decide +kernel)
    (by decide +kernel) (by decide +kernel)

/-- Two sources that carry a global of the same name, in the other order. -/
theorem compile_shared_session_swapped :
    ∃ alone : String → Shader,
      (∀ source ∈ [passSource, earlySource], ∃ final,
        Compilation.Finishes (compile {} source) (.fresh "v_") (alone source) final) ∧
      (∀ source ∈ [passSource, earlySource],
        (carriedGlobals {} source).map GlobalVariable.name = ["h"]) ∧
      ∃ final, Compilation.Finishes ([earlySource, passSource].mapM (compile {}))
        (.fresh "v_") [alone earlySource, alone passSource] final := by
  obtain ⟨⟨first, firstCompiles, -⟩, firstCarried⟩ := compileOwn_pass
  obtain ⟨⟨second, secondCompiles, -⟩, secondCarried⟩ := compileOwn_early
  let alone : String → Shader := fun source => if source = passSource then first else second
  have different : earlySource ≠ passSource := by decide
  have compiles : ∀ source ∈ [passSource, earlySource], ∃ final,
      Compilation.Finishes (compile {} source) (.fresh "v_") (alone source) final := by
    intro source listed
    simp only [List.mem_cons, List.not_mem_nil, or_false] at listed
    rcases listed with rfl | rfl
    · exact finishes_fresh_iff.mpr (by rw [firstCompiles]; simp [alone])
    · exact finishes_fresh_iff.mpr (by rw [secondCompiles]; simp [alone, different])
  have carried : ∀ source ∈ [passSource, earlySource],
      (carriedGlobals {} source).map (fun target => (target.name, target.typeName)) =
        [("h", "float")] := by
    intro source listed
    simp only [List.mem_cons, List.not_mem_nil, or_false] at listed
    rcases listed with rfl | rfl
    · rw [firstCarried]
      decide
    · rw [secondCarried]
      decide
  refine ⟨alone, compiles, ?_, ?_⟩
  · intro source listed
    have names := congrArg (List.map Prod.fst) (carried source listed)
    rwa [List.map_map] at names
  · refine compile_shared_session {} "v_" _ alone compiles ?_ _ (List.Perm.swap _ _ _)
    intro one oneListed two twoListed _ target inOne other inTwo _
    have typed : ∀ source ∈ [passSource, earlySource], ∀ found ∈ carriedGlobals {} source,
        found.typeName = "float" := by
      intro source listed found member
      have pair := List.mem_map_of_mem (f := fun target => (target.name, target.typeName)) member
      rw [carried source listed] at pair
      exact (Prod.mk.inj (List.mem_singleton.mp pair)).2
    grind

end Shader

end WebShader
