import WebShader.Proofs.Sharing.Adoption
import WebShader.Proofs.Sharing.Classes

/-!
Contract: the stages after all globals have been carried.

Owns: the turns in which globals are carried, and what they leave of the
mentions of a global that has become a channel.

Does not own: the single sources; those are `Adoption` and `Redirection`.

Only sources are redirected. A statement that is given for the entry or the
exit of a stage keeps its mentions, and so does the initial value of another
channel, which is stored by such a statement.
-/

namespace WebShader.Sharing

open List Token

variable {constants : List String} {options : Options} {resolved : Resolved}
  {baseName sourceType stmt typeName : String}

/-! Turns. -/

/-- A global that is carried, with its channel and the stages that it finds. -/
structure Turn where
  target : GlobalVariable
  channel : Channel
  stages : StagePair
  deriving DecidableEq, Repr

variable {modern : Bool} {channel : Channel} {registry : ChannelRegistry} {target : GlobalVariable}
  {globals : List GlobalVariable} {final session : Session} {later stages : StagePair}
  {unwanted : String} {turn : Turn}

def isCarried (target : GlobalVariable) : Bool :=
  target.sharing == .vertexChannel || target.sharing == .bothStages

namespace Turn

def result (modern : Bool) (turn : Turn) : Except Fault StagePair :=
  if turn.target.sharing == .vertexChannel then
    becomeChannel modern turn.target turn.channel turn.stages
  else handOver modern turn.target turn.channel turn.stages

/-- The statement that stores the initial value of a global that becomes its channel. -/
def initialStatement? (turn : Turn) : Option String :=
  if turn.target.sharing == .vertexChannel then
    turn.target.initializer.map fun initializer =>
      turn.channel.name ++ " = " ++ turn.channel.ofExpression initializer ++ ";"
  else none

/-- The statements that hand a global over and receive it. -/
def handedStatements (turn : Turn) : List String :=
  if turn.target.sharing == .vertexChannel then []
  else [turn.channel.name ++ " = " ++ turn.channel.ofExpression turn.target.name ++ ";",
    turn.target.name ++ " = " ++ turn.channel.read ++ ";"]

/-- Whether all declarations of a turn are exchanged between tokens. -/
def isClean (turn : Turn) : Bool :=
  let bare := turn.target.bareDeclaration ++ "\n"
  if turn.target.sharing == .vertexChannel then
    adoptsCleanly .output turn.target turn.channel turn.stages.vertex.source &&
      adoptsCleanly .input turn.target turn.channel turn.stages.fragment.source
  else
    isCarriable turn.target && declaresCleanly .output turn.channel turn.stages.vertex.source &&
      replacesCleanly turn.target bare turn.stages.fragment.source &&
      match replaceDeclaration turn.target bare turn.stages.fragment.source with
      | .ok received => declaresCleanly .input turn.channel received
      | .error _ => true

/-- Whether the channel has a name, and one other than a given one. -/
def avoids (turn : Turn) (unwanted : String) : Bool :=
  isName turn.channel.name.toList && turn.channel.name != unwanted

end Turn

/-- The turns in which globals are carried, from stages and a registry on. -/
def turns (modern : Bool) (stages : StagePair) (registry : ChannelRegistry) :
    List GlobalVariable → List Turn
  | [] => []
  | target :: rest =>
    if isCarried target then
      let (channel, others) :=
        registry.channelFor target.name (channelType modern target.typeName) target.typeName
      let turn : Turn := ⟨target, channel, stages⟩
      turn :: match turn.result modern with
        | .ok later => turns modern later others rest
        | .error _ => []
    else turns modern stages registry rest

def StagePair.statements (stages : StagePair) : List String :=
  stages.vertex.entry ++ stages.vertex.exit ++ stages.fragment.entry ++ stages.fragment.exit

/-! One turn. -/

theorem mem_addStatement {stmts : List String} {added : String} :
    stmt ∈ addStatement stmts added ↔ stmt ∈ stmts ∨ stmt = added := by
  rw [addStatement]
  grind

theorem becomeChannel_ok (carries : becomeChannel modern target channel stages = .ok later) :
    adoptChannel modern .output target channel stages.vertex.source = .ok later.vertex.source ∧
      adoptChannel modern .input target channel stages.fragment.source = .ok later.fragment.source ∧
      later.vertex.entry = (match target.initializer with
        | some initializer => addStatement stages.vertex.entry
            (channel.name ++ " = " ++ channel.ofExpression initializer ++ ";")
        | none => stages.vertex.entry) ∧
      later.vertex.exit = stages.vertex.exit ∧ later.fragment.entry = stages.fragment.entry ∧
      later.fragment.exit = stages.fragment.exit := by
  obtain ⟨vertexSource, vertexAdopts, further⟩ := bind_ok carries
  obtain ⟨fragmentSource, fragmentAdopts, last⟩ := bind_ok further
  obtain rfl := Except.ok.inj last
  grind

theorem handOver_ok (carries : handOver modern target channel stages = .ok later) :
    ∃ received, replaceDeclaration target (target.bareDeclaration ++ "\n") stages.fragment.source =
        .ok received ∧
      later.vertex = { stages.vertex with
        source := declareChannel modern .output channel stages.vertex.source
        exit := addStatement stages.vertex.exit
          (channel.name ++ " = " ++ channel.ofExpression target.name ++ ";") } ∧
      later.fragment = { stages.fragment with
        source := declareChannel modern .input channel received
        entry := addStatement stages.fragment.entry (target.name ++ " = " ++ channel.read ++ ";") } := by
  obtain ⟨received, receives, last⟩ := bind_ok carries
  obtain rfl := Except.ok.inj last
  exact ⟨received, receives, rfl, rfl⟩

/-- The statements after a turn. -/
theorem Turn.mem_statements (finishes : turn.result modern = .ok later) (stmt : String) :
    stmt ∈ later.statements ↔ stmt ∈ turn.stages.statements ∨
      stmt ∈ turn.initialStatement? ∨ stmt ∈ turn.handedStatements := by
  rw [Turn.result] at finishes
  rw [Turn.initialStatement?, Turn.handedStatements, StagePair.statements, StagePair.statements]
  split at finishes
  next shared =>
    obtain ⟨-, -, entry, exit, fragmentEntry, fragmentExit⟩ := becomeChannel_ok finishes
    rw [if_pos shared, if_pos shared, entry, exit, fragmentEntry, fragmentExit]
    cases turn.target.initializer with
    | none => simp
    | some initializer =>
      simp only [mem_append, mem_addStatement]
      grind
  next notShared =>
    obtain ⟨received, -, vertex, fragment⟩ := handOver_ok finishes
    rw [vertex, fragment]
    simp only [mem_append, mem_addStatement]
    grind

/-- What a turn needs in order to leave no mention of a name in the sources. -/
structure Turn.Fits (turn : Turn) (unwanted : String) : Prop where
  clean : turn.isClean = true
  free : unwanted ∉ reservedWords
  named : isName turn.channel.name.toList = true
  different : turn.channel.name ≠ unwanted
  typeListed : turn.channel.typeName ∈ channelTypes
  sourceListed : turn.channel.sourceType ∈ channelTypes
  handed : turn.target.sharing ≠ .vertexChannel →
    isName turn.target.name.toList = true ∧ turn.target.name ≠ unwanted

structure SourcesClear (unwanted : String) (stages : StagePair) : Prop where
  vertex : Clear unwanted stages.vertex.source
  fragment : Clear unwanted stages.fragment.source

namespace Turn.Fits

variable {turn : Turn} {unwanted : String} (fits : turn.Fits unwanted)

include fits

theorem channelAvoids : Channel.Avoids turn.channel unwanted.toList where
  named := fits.named
  typeNamed := isName_of_reserved _ (reserved_of_channelType fits.typeListed)
  sourceNamed := isName_of_reserved _ (reserved_of_channelType fits.sourceListed)
  different := fun same => fits.different (String.toList_inj.mp same)
  typeDifferent := ne_of_reserved fits.free (reserved_of_channelType fits.typeListed)
  sourceDifferent := ne_of_reserved fits.free (reserved_of_channelType fits.sourceListed)

theorem fills (side : ChannelSide) (modern : Bool) :
    Fills unwanted.toList (channelDeclaration modern side turn.channel).toList :=
  fills_channelDeclaration fits.free fits.typeListed fits.named fits.different modern side

/-- A turn leaves no mention of its own global if that becomes the channel, and
brings back no mention of another one. -/
theorem sources (known : (unwanted = turn.target.name ∧ turn.target.sharing = .vertexChannel ∧
      SourcesClear "" turn.stages) ∨ SourcesClear unwanted turn.stages)
    (finishes : turn.result modern = .ok later) : SourcesClear unwanted later := by
  have clean := fits.clean
  rw [Turn.isClean] at clean
  rw [Turn.result] at finishes
  split at finishes
  next shared =>
    rw [if_pos shared, Bool.and_eq_true] at clean
    obtain ⟨vertexAdopts, fragmentAdopts, -⟩ := becomeChannel_ok finishes
    rcases known with ⟨same, -, apart⟩ | clear
    · exact ⟨adoptChannel_clear fits.channelAvoids (fits.fills .output) clean.1
          apart.vertex.apart (.inl same) vertexAdopts,
        adoptChannel_clear fits.channelAvoids (fits.fills .input) clean.2
          apart.fragment.apart (.inl same) fragmentAdopts⟩
    · exact ⟨adoptChannel_clear fits.channelAvoids (fits.fills .output) clean.1
          clear.vertex.apart (.inr clear.vertex.absent) vertexAdopts,
        adoptChannel_clear fits.channelAvoids (fits.fills .input) clean.2
          clear.fragment.apart (.inr clear.fragment.absent) fragmentAdopts⟩
  next notShared =>
    rw [if_neg notShared, Bool.and_eq_true, Bool.and_eq_true, Bool.and_eq_true] at clean
    obtain ⟨⟨⟨carriable, vertexClean⟩, receivesCleanly⟩, fragmentClean⟩ := clean
    have ne : turn.target.sharing ≠ .vertexChannel := by simpa using notShared
    obtain ⟨targetNamed, targetDifferent⟩ := fits.handed ne
    have clear := known.resolve_left fun own => ne own.2.1
    obtain ⟨received, receives, vertex, fragment⟩ := handOver_ok finishes
    rw [receives] at fragmentClean
    have receivedClear := Clear.bareDeclaration fits.free carriable targetNamed targetDifferent
      clear.fragment receivesCleanly receives
    refine ⟨?_, ?_⟩
    · rw [vertex]
      exact clear.vertex.declareChannel (fits.fills .output) vertexClean modern
    · rw [fragment]
      exact receivedClear.declareChannel (fits.fills .input) fragmentClean modern

theorem handed_absent (mem : stmt ∈ turn.handedStatements) :
    mentions unwanted stmt = false := by
  rw [Turn.handedStatements] at mem
  split at mem
  · cases mem
  next notShared =>
    obtain ⟨targetNamed, targetDifferent⟩ := fits.handed (by simpa using notShared)
    have typeListed := reserved_of_channelType fits.typeListed
    have sourceListed := reserved_of_channelType fits.sourceListed
    have apart : ∀ {word : String}, word ∈ reservedWords → word ≠ unwanted :=
      fun listed same => fits.free (same ▸ listed)
    simp only [mem_cons, not_mem_nil, or_false] at mem
    rcases mem with rfl | rfl
    · exact mentions_assignment fits.named fits.different (isName_of_reserved _ typeListed)
        (apart typeListed) targetNamed targetDifferent turn.channel.converts
    · exact mentions_assignment targetNamed targetDifferent (isName_of_reserved _ sourceListed)
        (apart sourceListed) fits.named fits.different turn.channel.converts

/-- The statements that mention a name after a turn are those that did before,
and the initial value. -/
theorem statements (finishes : turn.result modern = .ok later) :
    (∀ stmt ∈ later.statements, mentions unwanted stmt = false) ↔
      (∀ stmt ∈ turn.stages.statements, mentions unwanted stmt = false) ∧
        ∀ stmt ∈ turn.initialStatement?, mentions unwanted stmt = false := by
  have members := Turn.mem_statements finishes
  constructor
  · grind
  · rintro ⟨given, initial⟩ stmt mem
    rcases (members stmt).mp mem with before | stored | handed
    · exact given stmt before
    · exact initial stmt stored
    · exact fits.handed_absent handed

end Turn.Fits

/-! All turns. -/

open Compilation (Finishes)

theorem channelFor_finishes
    (finishes : Finishes (Compilation.channelFor baseName typeName sourceType) session channel final) :
    session.channels.channelFor baseName typeName sourceType = (channel, final.channels) := by
  cases finishes
  rfl

/-- A carried global takes a turn, and no other one changes the stages. -/
theorem carry_finishes (finishes : Finishes (carry modern stages target) session later final) :
    if isCarried target then
      ∃ channel, session.channels.channelFor target.name (channelType modern target.typeName)
          target.typeName = (channel, final.channels) ∧
        (⟨target, channel, stages⟩ : Turn).result modern = .ok later
    else later = stages ∧ final = session := by
  rw [carry] at finishes
  cases shared : target.sharing with
  | vertexChannel =>
    rw [shared] at finishes
    obtain ⟨channel, between, allocates, becomes⟩ := finishes.bind
    obtain ⟨result, rfl⟩ := becomes.lift
    rw [if_pos (by simp [isCarried, shared])]
    exact ⟨channel, channelFor_finishes allocates, by simpa [Turn.result, shared] using result⟩
  | bothStages =>
    rw [shared] at finishes
    obtain ⟨channel, between, allocates, hands⟩ := finishes.bind
    obtain ⟨result, rfl⟩ := hands.lift
    rw [if_pos (by simp [isCarried, shared])]
    exact ⟨channel, channelFor_finishes allocates, by simpa [Turn.result, shared] using result⟩
  | _ =>
    rw [shared] at finishes
    rw [if_neg (by simp [isCarried, shared])]
    exact finishes.pure

/-- Turns that follow each other, from stages and a registry on. -/
inductive Runs (modern : Bool) :
    StagePair → ChannelRegistry → List Turn → StagePair → ChannelRegistry → Prop where
  | nil {stages : StagePair} {registry : ChannelRegistry} : Runs modern stages registry [] stages registry
  | cons {turn : Turn} {later result : StagePair} {registry others last : ChannelRegistry}
      {rest : List Turn}
      (allocates : registry.channelFor turn.target.name (channelType modern turn.target.typeName)
        turn.target.typeName = (turn.channel, others))
      (turned : turn.result modern = .ok later) (further : Runs modern later others rest result last) :
      Runs modern turn.stages registry (turn :: rest) result last

/-- A run takes the turns of the globals that are carried. -/
theorem runs_turns {result : StagePair}
    (finishes : Finishes (globals.foldlM (carry modern) stages) session result final) :
    Runs modern stages session.channels (turns modern stages session.channels globals) result
        final.channels ∧
      (turns modern stages session.channels globals).map Turn.target = globals.filter isCarried := by
  induction globals generalizing stages session with
  | nil =>
    obtain ⟨rfl, rfl⟩ := finishes.pure
    exact ⟨.nil, rfl⟩
  | cons target rest ih =>
    obtain ⟨later, between, carries, further⟩ := finishes.bind
    have step := carry_finishes carries
    rw [turns, filter_cons]
    cases carried : isCarried target with
    | false => grind
    | true =>
      rw [if_pos carried] at step
      obtain ⟨channel, allocates, turned⟩ := step
      obtain ⟨runs, targets⟩ := ih further
      simp only [if_true, allocates, turned, map_cons, targets]
      exact ⟨@Runs.cons _ ⟨target, channel, stages⟩ _ _ _ _ _ _ allocates turned runs, trivial⟩

theorem exists_turn {result : StagePair}
    (finishes : Finishes (globals.foldlM (carry modern) stages) session result final)
    (mem : target ∈ globals) (carried : isCarried target) :
    ∃ turn ∈ turns modern stages session.channels globals, turn.target = target := by
  rw [← mem_map, (runs_turns finishes).2]
  exact mem_filter.mpr ⟨mem, carried⟩

section Run

variable {listed : List Turn} {result : StagePair} {last : ChannelRegistry}
  (runs : Runs modern stages registry listed result last)

include runs

theorem run_clear (fits : ∀ turn ∈ listed, turn.Fits unwanted)
    (clear : SourcesClear unwanted stages) : SourcesClear unwanted result := by
  induction runs with
  | nil => exact clear
  | cons _ turned _ ih =>
    obtain ⟨here, others⟩ := forall_mem_cons.mp fits
    exact ih others (here.sources (.inr clear) turned)

/-- A global that becomes a channel is not mentioned in the sources afterwards. -/
theorem run_target_clear (mem : turn ∈ listed) (shared : turn.target.sharing = .vertexChannel)
    (fits : ∀ other ∈ listed, other.Fits turn.target.name)
    (fitsEmpty : ∀ other ∈ listed, other.Fits "") (apart : SourcesClear "" stages) :
    SourcesClear turn.target.name result := by
  induction runs with
  | nil => cases mem
  | cons _ turned further ih =>
    obtain ⟨here, others⟩ := forall_mem_cons.mp fits
    obtain ⟨hereEmpty, othersEmpty⟩ := forall_mem_cons.mp fitsEmpty
    rcases mem_cons.mp mem with rfl | later
    · exact run_clear further others (here.sources (.inl ⟨rfl, shared, apart⟩) turned)
    · exact ih later others othersEmpty (hereEmpty.sources (.inr apart) turned)

theorem run_statements (fits : ∀ turn ∈ listed, turn.Fits unwanted) :
    (∀ stmt ∈ result.statements, mentions unwanted stmt = false) ↔
      (∀ stmt ∈ stages.statements, mentions unwanted stmt = false) ∧
        ∀ turn ∈ listed, ∀ stmt ∈ turn.initialStatement?, mentions unwanted stmt = false := by
  induction runs with
  | nil => simp
  | cons _ turned _ ih =>
    obtain ⟨here, others⟩ := forall_mem_cons.mp fits
    rw [ih others, here.statements turned, forall_mem_cons, and_assoc]

end Run

theorem channelFor_types {others : ChannelRegistry} (present : sourceType ≠ "")
    (allocates : registry.channelFor baseName typeName sourceType = (channel, others)) :
    channel.typeName = typeName ∧ channel.sourceType = sourceType := by
  rw [ChannelRegistry.channelFor, if_neg (by simpa [String.isEmpty_iff] using present)] at allocates
  split at allocates
  next found search =>
    have carries := find?_some search
    simp_all [ChannelRegistry.carries]
  grind

/-- What a turn takes from its global. -/
structure Turn.Takes (modern : Bool) (globals : List GlobalVariable) (turn : Turn) : Prop where
  listed : turn.target ∈ globals
  carried : isCarried turn.target = true
  types : turn.target.typeName ≠ "" →
    turn.channel.typeName = channelType modern turn.target.typeName ∧
      turn.channel.sourceType = turn.target.typeName

theorem mem_turns (mem : turn ∈ turns modern stages registry globals) :
    turn.Takes modern globals := by
  induction globals generalizing stages registry with
  | nil => cases mem
  | cons target rest ih =>
    have later : ∀ {laterStages others}, turn ∈ turns modern laterStages others rest →
        turn.Takes modern (target :: rest) := by
      intro laterStages others further
      have takes := ih further
      exact ⟨mem_cons_of_mem _ takes.listed, takes.carried, takes.types⟩
    rw [turns] at mem
    split at mem
    next carried =>
      rcases mem_cons.mp mem with rfl | further
      · exact ⟨mem_cons_self, carried, fun present => channelFor_types present rfl⟩
      grind
    · exact later mem

theorem Turn.carriable (classified : Classified globals)
    (mem : turn ∈ turns modern stages registry globals) (clean : turn.isClean) :
    isCarriable turn.target := by
  obtain ⟨listed, carried, -⟩ := mem_turns mem
  simp only [isCarried, Bool.or_eq_true, beq_iff_eq] at carried
  rcases carried with channel | both
  · exact classified.carriable _ listed channel
  simp_all [Turn.isClean]

/-- A clean turn of a classified global fits every name that its channel avoids. -/
theorem Turn.fits (classified : Classified globals)
    (mem : turn ∈ turns modern stages registry globals) (clean : turn.isClean)
    (avoids : turn.avoids unwanted) (free : unwanted ∉ reservedWords)
    (handed : turn.target.sharing = .bothStages → turn.target.name ≠ unwanted) :
    turn.Fits unwanted := by
  obtain ⟨listed, carried, types⟩ := mem_turns mem
  have carriable := Turn.carriable classified mem clean
  simp only [Turn.avoids, Bool.and_eq_true, bne_iff_ne] at avoids
  simp only [isCarried, Bool.or_eq_true, beq_iff_eq] at carried
  simp only [isCarriable, Bool.and_eq_true, contains_eq_mem, decide_eq_true_eq] at carriable
  have present : turn.target.typeName ≠ "" := by
    intro empty
    rw [empty] at carriable
    exact absurd carriable.2 (by decide)
  obtain ⟨typeName, sourceType⟩ := types present
  refine ⟨clean, free, avoids.1, avoids.2, ?_, ?_, ?_⟩
  · rw [typeName]
    exact channelType_mem modern _ carriable.2
  · rw [sourceType]
    exact carriable.2
  · intro ne
    have both := carried.resolve_left ne
    exact ⟨classified.named _ listed both, handed both⟩

/-- A clean turn whose channel has a name fits the empty name. -/
theorem Turn.fits_empty (classified : Classified globals)
    (mem : turn ∈ turns modern stages registry globals) (clean : turn.isClean)
    (named : isName turn.channel.name.toList) : turn.Fits "" := by
  have avoids : turn.avoids "" := by
    simp only [Turn.avoids, Bool.and_eq_true, bne_iff_ne]
    exact ⟨named, ne_empty_of_isName named⟩
  exact Turn.fits classified mem clean avoids (by decide)
    fun both => ne_empty_of_isName (classified.named _ (mem_turns mem).listed both)

theorem resolve_steps
    (finishes : Finishes (resolve options constants globals stages) session resolved final) :
    (classify options.parameterPrefix constants globals stages.vertex.source
        stages.fragment.source).run.value = .ok resolved.globals ∧
      Finishes (resolved.globals.foldlM (carry options.modern) stages) session resolved.stages
        final := by
  obtain ⟨classified, between, classifies, further⟩ := finishes.bind
  obtain ⟨classes, rfl⟩ := classifies.ofChecked
  obtain ⟨carried, last, carries, ends⟩ := further.bind
  obtain ⟨rfl, rfl⟩ := ends.pure
  exact ⟨classes, carries⟩

theorem resolve_finishes
    (finishes : Finishes (resolve options constants globals stages) session resolved final) :
    Classified resolved.globals ∧
      Finishes (resolved.globals.foldlM (carry options.modern) stages) session resolved.stages
        final :=
  ⟨classify_classified (resolve_steps finishes).1, (resolve_steps finishes).2⟩

/-- A global that becomes a channel is gone from the sources of both stages. It
is gone from the entry and exit statements exactly if neither the given ones nor
those that store the initial values of channels mention it. -/
theorem resolve_channel_mentions {options : Options} {constants : List String}
    {globals : List GlobalVariable} {stages : StagePair} {session final : Session}
    {resolved : Resolved} {target : GlobalVariable}
    (finishes : Finishes (resolve options constants globals stages) session resolved final)
    (member : target ∈ resolved.globals) (shared : target.sharing = .vertexChannel)
    (free : target.name ∉ reservedWords)
    (vertexApart : numbersApart (lexemes stages.vertex.source.toList) = true)
    (fragmentApart : numbersApart (lexemes stages.fragment.source.toList) = true)
    (turned : ∀ turn ∈ turns options.modern stages session.channels resolved.globals,
      turn.isClean = true ∧ turn.avoids target.name = true) :
    mentions target.name resolved.stages.vertex.source = false ∧
      mentions target.name resolved.stages.fragment.source = false ∧
      ((∀ statement ∈ resolved.stages.statements, mentions target.name statement = false) ↔
        (∀ statement ∈ stages.statements, mentions target.name statement = false) ∧
          ∀ turn ∈ turns options.modern stages session.channels resolved.globals,
            ∀ statement ∈ turn.initialStatement?, mentions target.name statement = false) := by
  obtain ⟨classified, carries⟩ := resolve_finishes finishes
  have fits : ∀ turn ∈ turns options.modern stages session.channels resolved.globals,
      turn.Fits target.name := by
    intro turn listed
    obtain ⟨clean, avoids⟩ := turned turn listed
    exact Turn.fits classified listed clean avoids free
      (classified.distinct _ member _ (mem_turns listed).listed shared)
  have fitsEmpty : ∀ turn ∈ turns options.modern stages session.channels resolved.globals,
      turn.Fits "" := by
    intro turn listed
    obtain ⟨clean, avoids⟩ := turned turn listed
    simp only [Turn.avoids, Bool.and_eq_true] at avoids
    exact Turn.fits_empty classified listed clean avoids.1
  obtain ⟨runs, -⟩ := runs_turns carries
  obtain ⟨turn, taken, rfl⟩ := exists_turn carries member (by simp [isCarried, shared])
  have clear := run_target_clear runs taken shared fits fitsEmpty
    ⟨clear_empty vertexApart, clear_empty fragmentApart⟩
  exact ⟨clear.vertex.absent, clear.fragment.absent, run_statements runs fits⟩

def linkedGlobals : List GlobalVariable :=
  [⟨"float", "a", none, "", false, .unclassified⟩, ⟨"float", "b", some "a", "", false, .unclassified⟩]

def linkedStages : StagePair where
  vertex := ⟨.vertex, "float a;\nfloat b = a;\nvoid main() \x7b a = 1.0; b = 2.0; \x7d\n", [], []⟩
  fragment := ⟨.fragment, "void main() \x7b f(a, b); \x7d\n", [], []⟩

def unlinkedStages : StagePair where
  vertex := ⟨.vertex, "out float v_b;\nout float v_a;\nvoid main() \x7b v_a = 1.0; v_b = 2.0; \x7d\n",
    ["v_b = a;"], []⟩
  fragment := ⟨.fragment, "in float v_b;\nin float v_a;\nvoid main() \x7b f(v_a, v_b); \x7d\n", [], []⟩

theorem resolve_channel_mentions_linked :
    Finishes (resolve {} [] linkedGlobals linkedStages) (.fresh "v_")
        ⟨unlinkedStages, linkedGlobals.map ({ · with sharing := .vertexChannel })⟩
        ⟨⟨"v_", [⟨"a", "v_a", "float", "float"⟩, ⟨"b", "v_b", "float", "float"⟩]⟩, 0⟩ ∧
      mentions "a" unlinkedStages.vertex.source = false ∧
      mentions "a" unlinkedStages.fragment.source = false ∧
      ¬∀ statement ∈ unlinkedStages.statements, mentions "a" statement = false := by
  have finishes : Finishes (resolve {} [] linkedGlobals linkedStages) (.fresh "v_")
      ⟨unlinkedStages, linkedGlobals.map ({ · with sharing := .vertexChannel })⟩
      ⟨⟨"v_", [⟨"a", "v_a", "float", "float"⟩, ⟨"b", "v_b", "float", "float"⟩]⟩, 0⟩ :=
    Compilation.finishes_of_toOption (by decide +kernel)
  obtain ⟨vertex, fragment, statements⟩ := @resolve_channel_mentions _ _ _ _ _ _ _
    ⟨"float", "a", none, "", false, .vertexChannel⟩ finishes (by decide +kernel) rfl
    (by decide +kernel) (by decide +kernel) (by decide +kernel) (by decide +kernel)
  refine ⟨finishes, vertex, fragment, ?_⟩
  rw [statements]
  decide +kernel

end WebShader.Sharing
