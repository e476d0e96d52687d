import WebShader.Proofs.Include.Script
import WebShader.Proofs.Sharing.InterfaceAgreement
import WebShader.Proofs.Sharing.LeastConstants

/-!
Contract: carrying globals again in the stages that carrying has left.

Owns: what a run leaves for a second one, and when the second one changes nothing.

The second run classifies anew. The only assignment to a global that is handed
over may stand in the initial value of a channel, whose declaration is gone. The
global then becomes a channel itself. A name behind that of a channel's global
counts as used when a conversion has taken the place of the latter. A declaration
behind that of a channel, on one line with it, is found by the second run only.
-/

namespace WebShader

open List

namespace ChannelRegistry

variable {registry others : ChannelRegistry} {channel : Channel}
  {baseName typeName sourceType : String}

theorem channelFor_eq_self_iff :
    registry.channelFor baseName typeName sourceType = (channel, registry) ↔
      registry.channels.find? (carries baseName typeName
        (if sourceType.isEmpty then typeName else sourceType)) = some channel := by
  rw [channelFor]
  split
  next found => grind
  next absent =>
    rw [absent]
    refine iff_of_false ?_ (by simp)
    intro same
    have lengths := congrArg (·.2.channels.length) same
    simp at lengths

/-- A channel is allocated once. -/
theorem channelFor_again
    (allocates : registry.channelFor baseName typeName sourceType = (channel, others)) :
    others.channelFor baseName typeName sourceType = (channel, others) := by
  rw [channelFor_eq_self_iff]
  rw [channelFor] at allocates
  split at allocates
  next found => grind
  next absent =>
    obtain ⟨rfl, rfl⟩ := Prod.mk.inj allocates
    rw [find?_append, absent]
    simp [carries]

theorem channelFor_kept
    (known : registry.channelFor baseName typeName sourceType = (channel, registry))
    (otherName otherType otherSource : String) :
    (registry.channelFor otherName otherType otherSource).2.channelFor baseName typeName sourceType =
      (channel, (registry.channelFor otherName otherType otherSource).2) := by
  grind [carries, channelFor]

end ChannelRegistry

namespace Sharing

open Token
open Text
open Compilation (Finishes)

variable {modern : Bool} {side : ChannelSide} {target : GlobalVariable}
  {globals : List GlobalVariable} {known names : List String} {stages : StagePair} {turn : Turn}

/-! Classes. -/

deriving instance DecidableEq for Facts

/-- What the vertex stage writes, it wrote before, and the fragment stage writes and uses it as it
did before. -/
def Facts.Upholds (before after : Facts) : Prop :=
  ∀ name ∈ after.vertexWrites, name ∈ before.vertexWrites ∧
    (name ∈ after.fragmentWrites ↔ name ∈ before.fragmentWrites) ∧
    (name ∈ after.fragmentUses ↔ name ∈ before.fragmentUses)

/-- The class of a global by the facts about the stages. -/
def classBy (facts : Facts) (known : List String) (globals : List GlobalVariable)
    (target : GlobalVariable) : Sharing :=
  (sharingOf facts (settleConstants (facts.vertexWrites ++ facts.fragmentWrites) known
    (unclaimed globals)) target).value

def classedBy (facts : Facts) (known : List String) (globals : List GlobalVariable) :
    List GlobalVariable :=
  globals.map fun target => { target with sharing := classBy facts known globals target }

theorem classify_classedBy {facts : Facts} {parameterPrefix vertex fragment : String}
    (collects : Facts.ofStages parameterPrefix (globals.map GlobalVariable.name) vertex fragment =
      .ok facts) :
    (classify parameterPrefix known globals vertex fragment).run.value =
      .ok (classedBy facts known globals) :=
  classify_value collects

/-- A global that is carried was carried before, in the same way. It is written, so that more
constants do not make a difference. -/
theorem classBy_again {before after : Facts} (upholds : before.Upholds after)
    (carried : classBy after known globals target ∈ [Sharing.vertexChannel, .bothStages]) :
    classBy before known globals target = classBy after known globals target := by
  have written := sharingOf_written carried
  obtain ⟨wrote, writes, uses⟩ := upholds _ written
  have same : (sharingOfVariable before target).value = (sharingOfVariable after target).value := by
    simp only [sharingOfVariable_value, contains_eq_mem, written, wrote, writes, uses]
  rw [classBy, classBy, sharingOf_value carried, ← same]
  rw [classBy, sharingOf] at carried
  split at carried
  · simp [Pure.pure] at carried
  next unclaimed =>
    split at carried
    · simp at carried
    next changing =>
      have changed : target ∉ settleConstants (before.vertexWrites ++ before.fragmentWrites)
          known (Sharing.unclaimed globals) := by
        intro mem
        obtain ⟨pending, qualifies⟩ := (settleConstants_stable.1 target).mp mem
        -- what is written is constant only as a literal of an enumeration, and so in both runs
        have literal := qualifies.resolve_right fun unwritten =>
          unwritten.1 (mem_append_left _ wrote)
        exact changing (contains_iff_mem.mpr
          ((settleConstants_stable.1 target).mpr ⟨pending, .inl literal⟩))
      rw [sharingOf, if_neg unclaimed, if_neg (by simpa using changed)]

theorem mentions_of_referenced {wanted : List String} {name source : String}
    (mem : name ∈ Usage.referenced wanted source) : mentions name source := by
  have found : ∀ (tokens : List Token) (prev : Option Token),
      name ∈ Usage.referencedFrom wanted prev tokens → mentionsFrom name prev tokens := by
    intro tokens
    induction tokens with
    | nil => exact fun _ absurdity => absurd absurdity not_mem_nil
    | cons token rest ih =>
      intro prev mem
      rw [mentionsFrom, Bool.or_eq_true]
      rw [Usage.referencedFrom] at mem
      split at mem
      next here =>
        rcases mem_cons.mp mem with rfl | later
        · simp_all [Token.isWordIn, Token.isWord]
        · exact .inr (ih _ later)
      · exact .inr (ih _ mem)
  exact found _ _ mem

/-- A global that becomes a channel is mentioned in the fragment stage. -/
theorem mentions_of_vertexChannel {facts : Facts} {parameterPrefix vertex fragment : String}
    (collects : Facts.ofStages parameterPrefix names vertex fragment = .ok facts)
    (shared : classBy facts known globals target = .vertexChannel) :
    mentions target.name fragment := by
  have used : target.name ∈ facts.fragmentUses := by
    apply Decidable.byContradiction
    intro unused
    rw [classBy] at shared
    rw [sharingOf_value (by simp [shared]), sharingOfVariable_value] at shared
    simp only [contains_eq_mem, unused, decide_false, Bool.and_false, Bool.false_and,
      Bool.false_eq_true, if_false] at shared
    split at shared <;> cases shared
  obtain ⟨vertexWrites, -, further⟩ := bind_ok collects
  obtain ⟨fragmentWrites, -, last⟩ := bind_ok further
  obtain rfl := Except.ok.inj last
  exact mentions_of_referenced used

/-! Declarations. -/

theorem findAllFrom_ne_nil {α : Type} {opening : Opening} {reader : Reader α} {text : List Char}
    (reads : (reader.read? text).isSome) (present : text ≠ []) (front : List Char)
    {prev : Option Char} (opens : opening (front.getLast?.or prev)) (offset : Nat) :
    findAllFrom opening reader prev offset 0 (front ++ text) ≠ [] := by
  induction front generalizing prev offset with
  | nil =>
    obtain ⟨c, rest, rfl⟩ := exists_cons_of_ne_nil present
    obtain ⟨found, first⟩ := Option.isSome_iff_exists.mp reads
    simp_all [findAllFrom]
  | cons c rest ih =>
    rw [cons_append, findAllFrom]
    grind

/-- The declaration of a channel is read as one. -/
theorem read?_declaredChannel {channel : Channel} (typed : channel.typeName ∈ channelTypes)
    (named : isName channel.name.toList) (side : ChannelSide) (rest : List Char) :
    ((declaredChannel side channel).read? ((side.word ++ " " ++ channel.typeName ++ " " ++
      channel.name ++ ";").toList ++ rest)).isSome := by
  have typeNamed := isName_of_reserved _ (reserved_of_channelType typed)
  have solid : ∀ {name : List Char} (further : List Char), isName name →
      (name ++ further).head?.any isBlank = false := by
    intro name further isName
    simp only [Token.isName, Bool.and_eq_true] at isName
    obtain ⟨c, others, rfl, -⟩ := startsName_head isName.1
    exact Include.isBlank_of_isWord (all_eq_true.mp isName.2 c mem_cons_self)
  have words : ∀ c ∈ channel.typeName.toList, isWord c := by
    simp only [Token.isName, Bool.and_eq_true, all_eq_true] at typeNamed
    exact typeNamed.2
  have spaced : ∀ further, further.head?.any isBlank = false →
      Reader.someBlanks.read? (" ".toList ++ further) = some ((), further) := by
    intro further solid
    refine Reader.read?_someBlanks (by simp) ?_ solid
    intro c mem
    obtain rfl : c = ' ' := by simpa using mem
    decide
  have present : channel.typeName.toList ≠ [] := by
    simpa using ne_empty_of_isName typeNamed
  simp only [declaredChannel, Reader.read?_bind, String.toList_append, append_assoc,
    Reader.read?_literal, Option.bind_some]
  rw [spaced _ (solid _ typeNamed), Option.bind_some, Reader.word,
    Reader.read?_someRun present words rfl, Option.bind_some, spaced _ (solid _ named),
    Option.bind_some, Reader.read?_literal]
  rfl

theorem isDeclared_of_line {source : String} {fixed : List String} {back : List Char}
    {channel : Channel} (fronted : Fronted side names source fixed back)
    (listed : channelDeclaration modern side channel ∈ fixed)
    (typed : channel.typeName ∈ channelTypes) (named : isName channel.name.toList) :
    isDeclared side channel source := by
  obtain ⟨first, second, rfl⟩ := append_of_mem listed
  have reads := read?_declaredChannel typed named side ('\n' :: (linesText second ++ back))
  have parted : ∃ front, source.toList = front ++ ((side.word ++ " " ++ channel.typeName ++ " " ++
      channel.name ++ ";").toList ++ '\n' :: (linesText second ++ back)) ∧
        wordStart (front.getLast?.or none) := by
    rw [fronted.text, linesText_append, linesText_cons, channelDeclaration]
    refine ⟨linesText first ++ (if modern && integerTypes.contains channel.typeName then "flat "
      else "").toList, by simp, ?_⟩
    split
    · have last : (linesText first ++ "flat ".toList).getLast? = some ' ' := by simp
      rw [last]
      decide
    · rcases first.eq_nil_or_concat with rfl | ⟨front, line, rfl⟩
      · rfl
      · have last : (linesText (front.concat line) ++ "".toList).getLast? = some '\n' := by
          simp [linesText]
        rw [last]
        decide
  obtain ⟨front, text, opens⟩ := parted
  rw [isDeclared, findAll, text, Bool.not_eq_true', isEmpty_eq_false_iff]
  exact findAllFrom_ne_nil reads (by simp) front opens 0

/-- The lines that declare channels stay. -/
theorem run_lines {result : StagePair} {registry last : ChannelRegistry} {listed : List Turn}
    {fixed : List String} {back : List Char} (runs : Runs modern stages registry listed result last)
    (reserved : ∀ name ∈ names, name ∉ reservedWords) (meets : ∀ turn ∈ listed, turn.Meets names)
    (fronted : Fronted side names (stages.sourceOf side) fixed back) (beyond : GoesBeyond fixed) :
    ∃ lines other, Fronted side names (result.sourceOf side) lines other ∧ fixed ⊆ lines ∧
      ∀ turn ∈ listed, turn.isTaken side = false →
        channelDeclaration modern side turn.channel ∈ lines := by
  induction runs generalizing fixed back with
  | nil => grind
  | cons _ turned _ ih =>
    obtain ⟨here, laterMeets⟩ := forall_mem_cons.mp meets
    obtain ⟨between, other, laterFronted, laterBeyond, keeps, declares, -⟩ :=
      here.step fronted beyond reserved turned
    grind

/-! Statements. -/

/-- A global has been handed over: its channel is registered, and the statements that hand it
over and receive it are there. -/
structure Turn.Handed (modern : Bool) (stages : StagePair) (registry : ChannelRegistry)
    (turn : Turn) : Prop where
  registered : registry.channelFor turn.target.name (channelType modern turn.target.typeName)
    turn.target.typeName = (turn.channel, registry)
  leaves : turn.channel.name ++ " = " ++ turn.channel.ofExpression turn.target.name ++ ";" ∈
    stages.vertex.exit
  enters : turn.target.name ++ " = " ++ turn.channel.read ++ ";" ∈ stages.fragment.entry

theorem Turn.statements_kept {later : StagePair} (turned : turn.result modern = .ok later) :
    turn.stages.vertex.exit ⊆ later.vertex.exit ∧
      turn.stages.fragment.entry ⊆ later.fragment.entry := by
  rw [Turn.result] at turned
  split at turned
  · obtain ⟨-, -, -, exit, entry, -⟩ := becomeChannel_ok turned
    grind
  · obtain ⟨received, -, vertex, fragment⟩ := handOver_ok turned
    rw [vertex, fragment]
    exact ⟨fun _ mem => mem_addStatement.mpr (.inl mem),
      fun _ mem => mem_addStatement.mpr (.inl mem)⟩

theorem run_hands {result : StagePair} {registry last : ChannelRegistry} {listed : List Turn}
    (runs : Runs modern stages registry listed result last)
    (known : turn.Handed modern stages registry ∨
      turn ∈ listed ∧ turn.target.sharing = .bothStages) :
    turn.Handed modern result last := by
  induction runs with
  | nil => grind
  | @cons taken _ _ _ _ _ _ allocates turned _ ih =>
    apply ih
    rcases known with handed | ⟨mem, both⟩
    · obtain ⟨exits, entries⟩ := Turn.statements_kept turned
      have kept := ChannelRegistry.channelFor_kept handed.registered taken.target.name
        (channelType modern taken.target.typeName) taken.target.typeName
      rw [allocates] at kept
      exact .inl ⟨kept, exits handed.leaves, entries handed.enters⟩
    · rcases mem_cons.mp mem with rfl | later
      · rw [Turn.result, if_neg (by simp [both])] at turned
        obtain ⟨received, -, vertex, fragment⟩ := handOver_ok turned
        refine .inl ⟨ChannelRegistry.channelFor_again allocates, ?_, ?_⟩
        · rw [vertex]
          exact mem_addStatement.mpr (.inr rfl)
        · rw [fragment]
          exact mem_addStatement.mpr (.inr rfl)
      · exact .inr ⟨later, both⟩

/-! The second run. -/

theorem addStatement_of_mem {stmts : List String} {stmt : String}
    (mem : stmt ∈ stmts) : addStatement stmts stmt = stmts := by
  rw [addStatement, if_pos (contains_iff_mem.mpr mem)]

/-- Handing over what has been handed over changes nothing. -/
theorem Turn.Handed.result {registry : ChannelRegistry}
    (handed : turn.Handed modern stages registry)
    (declared : ∀ side, isDeclared side turn.channel (stages.sourceOf side))
    (bare : replaceDeclaration turn.target (turn.target.bareDeclaration ++ "\n")
      stages.fragment.source = .ok stages.fragment.source) :
    handOver modern turn.target turn.channel stages = .ok stages := by
  have vertex : isDeclared .output turn.channel stages.vertex.source := declared .output
  have fragment : isDeclared .input turn.channel stages.fragment.source := declared .input
  rw [handOver, bare]
  simp only [ok_bind, declareChannel, vertex, fragment, addStatement_of_mem handed.leaves, addStatement_of_mem handed.enters]
  rfl

/-- Carrying changes nothing if each global that is carried has been handed over. -/
theorem carry_unchanged {session : Session}
    (unchanged : ∀ target ∈ globals, isCarried target → target.sharing = .bothStages ∧
      ∃ channel, session.channels.channelFor target.name (channelType modern target.typeName)
          target.typeName = (channel, session.channels) ∧
        handOver modern target channel stages = .ok stages) :
    Finishes (globals.foldlM (carry modern) stages) session stages session := by
  induction globals with
  | nil => rfl
  | cons target rest ih =>
    obtain ⟨here, later⟩ := forall_mem_cons.mp unchanged
    have step : outcome (carry modern stages target) session = (.ok stages, session) := by
      rw [carry]
      cases shared : target.sharing with
      | vertexChannel => grind [isCarried]
      | bothStages =>
        obtain ⟨-, channel, allocates, hands⟩ := here (by simp [isCarried, shared])
        have found : outcome (carry.allocate modern target) session = (.ok channel, session) := by
          show (Except.ok (session.channels.channelFor _ _ _).1,
            { session with channels := (session.channels.channelFor _ _ _).2 }) = _
          rw [allocates]
        exact (outcome_bind_ok found _).trans (by rw [hands]; rfl)
      | _ => rfl
    exact (outcome_bind_ok step _).trans (ih later)

section Resolution

variable {options : Options} {constants : List String} {globals : List GlobalVariable}
  {stages : StagePair} {session final : Session} {resolved : Resolved}
  (finishes : Finishes (resolve options constants globals stages) session resolved final)
  (reserved : ∀ target ∈ resolved.globals, target.name ∉ reservedWords)
  (apart : ∀ side, numbersApart (lexemes (stages.sourceOf side).toList) = true)
  (named : ∀ turn ∈ turns options.modern stages session.channels resolved.globals,
    isName turn.channel.name.toList = true ∧ turn.channel.name ∉ reservedWords ∧
      ∀ target ∈ resolved.globals, turn.channel.name ≠ target.name)
  (clean : ∀ turn ∈ turns options.modern stages session.channels resolved.globals,
    turn.isClean = true)

include finishes reserved apart named clean

theorem resolve_clear (mem : target ∈ resolved.globals)
    (shared : target.sharing = .vertexChannel) : SourcesClear target.name resolved.stages := by
  obtain ⟨classified, carries⟩ := resolve_finishes finishes
  obtain ⟨turn, taken, rfl⟩ := exists_turn carries mem (by simp [isCarried, shared])
  refine run_target_clear (runs_turns carries).1 taken shared ?_ ?_
    ⟨clear_empty (apart .output), clear_empty (apart .input)⟩
  · intro turn listed
    obtain ⟨isName, -, ne⟩ := named turn listed
    exact Turn.fits classified listed (clean turn listed)
      (by simp [Turn.avoids, isName, ne _ mem]) (reserved _ mem)
      (classified.distinct _ mem _ (mem_turns listed).listed shared)
  grind [Turn.fits_empty]

/-- A channel that a turn declares is declared in the end. -/
theorem resolve_declared
    (tidy : ∀ side, ∀ turn ∈ turns options.modern stages session.channels resolved.globals,
      turn.isTidy (carriedNames resolved.globals) side)
    (mem : turn ∈ turns options.modern stages session.channels resolved.globals)
    (untaken : turn.isTaken side = false) :
    isDeclared side turn.channel (resolved.stages.sourceOf side) := by
  obtain ⟨classified, carries⟩ := resolve_finishes finishes
  have meets : ∀ turn ∈ turns options.modern stages session.channels resolved.globals,
      turn.Meets (carriedNames resolved.globals) := by
    intro turn mem
    obtain ⟨isName, free, ne⟩ := named turn mem
    have takes := mem_turns mem
    exact {
      fits := Turn.fits_empty classified mem (clean turn mem) isName
      carriable := Turn.carriable classified mem (clean turn mem)
      tidy := fun side => tidy side turn mem
      listed := mem_map_of_mem (mem_filter.mpr ⟨takes.listed, takes.carried⟩)
      free
      different := by
        intro absurdity
        obtain ⟨target, carried, same⟩ := mem_map.mp absurdity
        exact ne target (mem_filter.mp carried).1 same.symm }
  have free : ∀ name ∈ carriedNames resolved.globals, name ∉ reservedWords := by
    intro name carried
    obtain ⟨target, listed, rfl⟩ := mem_map.mp carried
    exact reserved target (mem_filter.mp listed).1
  obtain ⟨lines, other, fronted, -, declares⟩ :=
    run_lines (runs_turns carries).1 free meets (fronted_whole side _ (apart side)) (.inl rfl)
  exact isDeclared_of_line fronted (declares turn mem untaken) (meets turn mem).fits.typeListed
    (named turn mem).1

/-- A second run in the same session returns the programs of the first one, if what the vertex
stage still writes was written and is used as before, and if the declarations found of the globals
that are handed over have no initial value. It then carries only globals that the first run has
handed over. -/
theorem resolve_again {before after : Facts}
    (tidy : ∀ side, ∀ turn ∈ turns options.modern stages session.channels resolved.globals,
      turn.isTidy (carriedNames resolved.globals) side = true)
    (untaken : ∀ side, ∀ turn ∈ turns options.modern stages session.channels resolved.globals,
      turn.target.sharing = .bothStages → turn.isTaken side = false)
    (given : Facts.ofStages options.parameterPrefix (globals.map GlobalVariable.name)
      stages.vertex.source stages.fragment.source = .ok before)
    (left : Facts.ofStages options.parameterPrefix (globals.map GlobalVariable.name)
      resolved.stages.vertex.source resolved.stages.fragment.source = .ok after)
    (upholds : before.Upholds after)
    (bare : ∀ target ∈ resolved.globals, target.sharing = .bothStages →
      replaceDeclaration target (target.bareDeclaration ++ "\n") resolved.stages.fragment.source =
        .ok resolved.stages.fragment.source) :
    Finishes (resolve options constants globals resolved.stages) final
        ⟨resolved.stages, classedBy after constants globals⟩ final ∧
      ∀ target ∈ classedBy after constants globals, isCarried target = true →
        target ∈ resolved.globals ∧ target.sharing = .bothStages := by
  obtain ⟨classes, carries⟩ := resolve_steps finishes
  rw [classify_classedBy given] at classes
  have stays : ∀ target ∈ classedBy after constants globals, isCarried target = true →
      target ∈ resolved.globals ∧ target.sharing = .bothStages := by
    intro target member carried
    obtain ⟨original, listed, rfl⟩ := List.mem_map.mp member
    simp only [isCarried, Bool.or_eq_true, beq_iff_eq] at carried
    have same := classBy_again upholds (by simpa using carried)
    have known : { original with sharing := classBy after constants globals original } ∈
        resolved.globals := by
      rw [← Except.ok.inj classes, ← same]
      exact List.mem_map_of_mem listed
    refine ⟨known, carried.resolve_left fun shared => ?_⟩
    -- the name of a channel's global is gone from the fragment stage
    have absent := (resolve_clear finishes reserved apart named clean known shared).fragment.absent
    rw [mentions_of_vertexChannel left shared] at absent
    cases absent
  refine ⟨?_, stays⟩
  have unchanged : Finishes ((classedBy after constants globals).foldlM (carry options.modern)
      resolved.stages) final resolved.stages final := by
    refine carry_unchanged fun target member carried => ?_
    obtain ⟨known, both⟩ := stays target member carried
    obtain ⟨turn, turned, rfl⟩ := exists_turn carries known carried
    have handed := run_hands (runs_turns carries).1 (.inr ⟨turned, both⟩)
    exact ⟨both, turn.channel, handed.registered, handed.result
      (fun side => resolve_declared finishes reserved apart named clean tidy turned
        (untaken side turn turned both)) (bare _ known both)⟩
  have classifies : outcome (Compilation.ofChecked (classify options.parameterPrefix constants globals
      resolved.stages.vertex.source resolved.stages.fragment.source)) final =
      (.ok (classedBy after constants globals), final) :=
    congrArg (·, final) (classify_classedBy left)
  exact (outcome_bind_ok classifies _).trans (outcome_bind_ok unchanged _)

end Resolution

/-- A float that becomes a channel, an integer that both stages write, and a float that the
fragment stage starts with the value of the first. -/
def blended (first second third : Sharing) : List GlobalVariable :=
  [⟨"float", "a", none, "", false, first⟩, ⟨"int", "k", some "2", "", false, second⟩,
    ⟨"float", "g", some "a", "", false, third⟩]

def blendedGlobals : List GlobalVariable :=
  blended .unclassified .unclassified .unclassified

def blendedStages : StagePair where
  vertex := ⟨.vertex, "float a;\nint k=2;\nvoid f()\x7ba=k=1;\x7d\n", [], []⟩
  fragment := ⟨.fragment, "float a;\nint k=2;\nfloat g=a;\nvoid f()\x7bk=a+g;\x7d\n", [], []⟩

def settledStages : StagePair where
  vertex := ⟨.vertex, "flat out int v_k;\nout float v_a;\nint k=2;\nvoid f()\x7bv_a=k=1;\x7d\n",
    [], ["v_k = k;"]⟩
  fragment := ⟨.fragment, "flat in int v_k;\nin float v_a;\nint k;\nfloat g=v_a;\n" ++
    "void f()\x7bk=v_a+g;\x7d\n", ["k = v_k;"], []⟩

def blendedClasses : List GlobalVariable :=
  blended .vertexChannel .bothStages .stageLocal

def blendedSession : Session :=
  ⟨⟨"v_", [⟨"a", "v_a", "float", "float"⟩, ⟨"k", "v_k", "int", "int"⟩]⟩, 0⟩

/-- For the second run the first float and, with it, the last one are constants. -/
theorem resolve_again_blended :
    Finishes (resolve {} [] blendedGlobals blendedStages) (.fresh "v_")
        ⟨settledStages, blendedClasses⟩ blendedSession ∧
      Finishes (resolve {} [] blendedGlobals settledStages) blendedSession
        ⟨settledStages, blended .constant .bothStages .constant⟩ blendedSession := by
  have finishes : Finishes (resolve {} [] blendedGlobals blendedStages) (.fresh "v_")
      ⟨settledStages, blendedClasses⟩ blendedSession :=
    Compilation.finishes_of_toOption (by decide +kernel)
  have regular : ∀ turn ∈ turns ({} : Options).modern blendedStages (Session.fresh "v_").channels
      blendedClasses, (isName turn.channel.name.toList = true ∧ turn.channel.name ∉ reservedWords ∧
        ∀ target ∈ blendedClasses, turn.channel.name ≠ target.name) ∧ turn.isClean = true ∧
      ∀ side ∈ [ChannelSide.output, .input],
        turn.isTidy (carriedNames blendedClasses) side = true ∧
          (turn.target.sharing = .bothStages → turn.isTaken side = false) := by
    decide +kernel
  have listed : ∀ side, side ∈ [ChannelSide.output, .input] := fun side => by cases side <;> decide
  obtain ⟨again, -⟩ := @resolve_again _ _ _ _ _ _ _ finishes (by decide)
    (fun side => by cases side <;> decide +kernel) (fun turn member => (regular turn member).1)
    (fun turn member => (regular turn member).2.1)
    ⟨["a", "k"], ["k"], ["a", "k", "a", "g"]⟩ ⟨["k"], ["k"], ["k", "g"]⟩
    (fun side turn member => ((regular turn member).2.2 side (listed side)).1)
    (fun side turn member => ((regular turn member).2.2 side (listed side)).2)
    (eq_ok_of_toOption (by decide +kernel)) (eq_ok_of_toOption (by decide +kernel))
    (by unfold Facts.Upholds; decide)
    (fun target member both => eq_ok_of_toOption (by revert target; decide +kernel))
  have classes : classedBy ⟨["k"], ["k"], ["k", "g"]⟩ [] blendedGlobals =
      blended .constant .bothStages .constant := by decide +kernel
  rw [classes] at again
  exact ⟨finishes, again⟩

end Sharing

end WebShader
