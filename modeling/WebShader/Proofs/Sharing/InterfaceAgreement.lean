import WebShader.Proofs.Sharing.ChannelNames
import WebShader.Proofs.Sharing.Fronted

/-!
Contract: the inputs and outputs of the stages after all globals have been carried.

Owns: a turn as edits of the two sources, and the declarations of channels that
all turns leave.

Does not own: single edits; those are `Fronted`.

Whether a channel is declared is looked up in the whole text of a source. A
comment that ends with the word of the side, in front of a statement such as
`return` with the global, passes for a declaration of its channel. The channel
then stays undeclared.
-/

namespace WebShader.Sharing

open List Token

variable {side : ChannelSide} {name source : String}

def StagePair.sourceOf (stages : StagePair) : ChannelSide → String
  | .output => stages.vertex.source
  | .input => stages.fragment.source

/-! One turn. -/

namespace Turn

def replacesIn (turn : Turn) (side : ChannelSide) : Bool :=
  turn.target.sharing == .vertexChannel || side == .input

def replacement (turn : Turn) : String :=
  if turn.target.sharing == .vertexChannel then "" else turn.target.bareDeclaration ++ "\n"

def replaced (turn : Turn) (side : ChannelSide) : Except Fault String :=
  if turn.replacesIn side then
    replaceDeclaration turn.target turn.replacement (turn.stages.sourceOf side)
  else .ok (turn.stages.sourceOf side)

/-- A source before the channel is declared in it. -/
def pending (turn : Turn) (side : ChannelSide) : Except Fault String := do
  let replaced ← turn.replaced side
  return if turn.target.sharing == .vertexChannel then
    redirectReferences turn.target.name turn.channel replaced
  else replaced

/-- Whether the channel passes for declared before it is. -/
def isTaken (turn : Turn) (side : ChannelSide) : Bool :=
  match turn.pending side with
  | .ok source => isDeclared side turn.channel source
  | .error _ => false

/-- Whether the edits of a turn fall between declarations, and behind a header without names. -/
def isTidy (names : List String) (turn : Turn) (side : ChannelSide) : Bool :=
  (!turn.replacesIn side || cutsOutside side turn.target (turn.stages.sourceOf side)) &&
    match turn.pending side with
    | .ok source => isDeclared side turn.channel source || headerHolds side names source
    | .error _ => true

variable {turn : Turn} {modern : Bool} {later : StagePair}

theorem sourceOf_result (finishes : turn.result modern = .ok later) (side : ChannelSide) :
    ∃ source, turn.pending side = .ok source ∧
      later.sourceOf side = declareChannel modern side turn.channel source := by
  rw [Turn.result] at finishes
  split at finishes
  next shared =>
    have adopts : adoptChannel modern side turn.target turn.channel (turn.stages.sourceOf side) =
        .ok (later.sourceOf side) := by
      obtain ⟨vertexAdopts, fragmentAdopts, -⟩ := becomeChannel_ok finishes
      cases side with
      | output => exact vertexAdopts
      | input => exact fragmentAdopts
    obtain ⟨removed, removes, last⟩ := bind_ok adopts
    refine ⟨redirectReferences turn.target.name turn.channel removed, ?_, ?_⟩
    · simp only [pending, replaced, replacesIn, replacement, shared, if_true, removes]
      rfl
    · exact (Except.ok.inj last).symm
  next notShared =>
    obtain ⟨received, receives, vertex, fragment⟩ := handOver_ok finishes
    have isOther : (turn.target.sharing == .vertexChannel) = false := by simpa using notShared
    cases side with
    | output =>
      refine ⟨turn.stages.vertex.source, ?_, ?_⟩
      · simp only [pending, replaced, replacesIn, isOther]
        rfl
      · show later.vertex.source = _
        rw [vertex]
    | input =>
      refine ⟨received, ?_, ?_⟩
      · have receivesHere : replaceDeclaration turn.target (turn.target.bareDeclaration ++ "\n")
            (turn.stages.sourceOf .input) = .ok received := receives
        simp_all [pending, replaced, replacesIn, replacement]
      · show later.fragment.source = _
        rw [fragment]

theorem pending_ok (isPending : turn.pending side = .ok source) :
    ∃ replaced, turn.replaced side = .ok replaced ∧
      source = if turn.target.sharing == .vertexChannel then
        redirectReferences turn.target.name turn.channel replaced else replaced := by
  obtain ⟨replaced, replaces, last⟩ := bind_ok isPending
  exact ⟨replaced, replaces, (Except.ok.inj last).symm⟩

/-- What a clean turn says of one side. -/
theorem clean_side (clean : turn.isClean) (side : ChannelSide) :
    (turn.replacesIn side →
      replacesCleanly turn.target turn.replacement (turn.stages.sourceOf side)) ∧
    ∀ source, turn.pending side = .ok source → declaresCleanly side turn.channel source := by
  rw [Turn.isClean] at clean
  rw [replacement]
  split at clean
  next shared =>
    have adopts : adoptsCleanly side turn.target turn.channel (turn.stages.sourceOf side) =
        true := by
      rw [Bool.and_eq_true] at clean
      cases side with
      | output => exact clean.1
      | input => exact clean.2
    rw [adoptsCleanly, Bool.and_eq_true] at adopts
    rw [if_pos shared]
    refine ⟨fun _ => adopts.1, ?_⟩
    intro source isPending
    obtain ⟨replaced, replaces, rfl⟩ := pending_ok isPending
    simp_all [Turn.replaced, replacesIn, replacement]
  next notShared =>
    simp only [Bool.and_eq_true] at clean
    obtain ⟨⟨⟨-, vertexClean⟩, receivesCleanly⟩, fragmentClean⟩ := clean
    have isOther : (turn.target.sharing == .vertexChannel) = false := by simpa using notShared
    rw [if_neg notShared]
    cases side with
    | output =>
      rw [replacesIn, isOther]
      refine ⟨fun absurdity => absurd absurdity (by decide), ?_⟩
      intro source isPending
      obtain ⟨replaced, replaces, rfl⟩ := pending_ok isPending
      rw [Turn.replaced, replacesIn, isOther] at replaces
      rw [if_neg notShared, ← Except.ok.inj replaces]
      exact vertexClean
    | input =>
      refine ⟨fun _ => receivesCleanly, ?_⟩
      intro source isPending
      obtain ⟨replaced, replaces, rfl⟩ := pending_ok isPending
      rw [Turn.replaced, replacesIn, isOther, replacement,
        if_neg notShared] at replaces
      have receives : replaceDeclaration turn.target (turn.target.bareDeclaration ++ "\n")
        turn.stages.fragment.source = .ok replaced := replaces
      grind

end Turn

/-- What a turn needs in order to leave one declaration of its channel in each stage. -/
structure Turn.Meets (turn : Turn) (names : List String) : Prop where
  fits : turn.Fits ""
  carriable : isCarriable turn.target = true
  tidy : ∀ side, turn.isTidy names side = true
  listed : turn.target.name ∈ names
  free : turn.channel.name ∉ reservedWords
  different : turn.channel.name ∉ names

namespace Turn.Meets

variable {turn : Turn} {names : List String} (meets : turn.Meets names)

include meets

/-- What takes the place of a declaration declares no input and no output. -/
theorem neutral (side : ChannelSide) (cut : Cut) :
    ∃ added, Neutral side (cut.filling turn.replacement) added := by
  rw [Turn.replacement]
  split
  · rw [filling_empty]
    exact ⟨[], fun _ _ cleared => cleared, rfl, rfl⟩
  next notShared =>
    have ne : turn.target.sharing ≠ .vertexChannel := by simpa using notShared
    have plain := neutral_declaration (isCarriable_parts meets.carriable).2
      (meets.fits.handed ne).1 side
    rcases filling_bare meets.carriable cut with filling | filling
    · rw [filling]
      exact ⟨_, plain.lineEnd⟩
    · rw [filling]
      exact ⟨_, plain⟩

theorem channelOther (side : ChannelSide) : turn.channel.name ≠ side.word := by
  intro same
  apply meets.free
  rw [same]
  cases side <;> decide

variable {side : ChannelSide} {fixed : List String} {back : List Char}
  (fronted : Fronted side names (turn.stages.sourceOf side) fixed back)

include fronted

theorem replaced (replaces : turn.replaced side = .ok source) :
    ∃ other, Fronted side names source fixed other ∧
      ∀ name, Lacks side name (lexemes back) → Lacks side name (lexemes other) := by
  have tidy := meets.tidy side
  rw [Turn.isTidy, Bool.and_eq_true] at tidy
  rw [Turn.replaced] at replaces
  split at replaces
  next here =>
    have clean := (Turn.clean_side meets.fits.clean side).1 here
    have outside : cutsOutside side turn.target (turn.stages.sourceOf side) := by
      simpa [here] using tidy.1
    exact fronted.replaceDeclaration (isCarriable_parts meets.carriable).2 clean outside
      (meets.neutral side) replaces
  grind

/-- The edits in front of the declaration bring no declaration of a name, unless the name is that
of the channel and the global is declared. -/
theorem pending (isPending : turn.pending side = .ok source) :
    ∃ other, Fronted side names source fixed other ∧
      ∀ name, (name = turn.channel.name → Lacks side turn.target.name (lexemes back)) →
        Lacks side name (lexemes back) → Lacks side name (lexemes other) := by
  obtain ⟨replaced, replaces, rfl⟩ := Turn.pending_ok isPending
  obtain ⟨other, replacedFronted, keeps⟩ := meets.replaced fronted replaces
  split
  · obtain ⟨last, redirectedFronted, redirects⟩ := replacedFronted.redirectReferences meets.listed
      meets.fits.channelAvoids (meets.channelOther side)
    refine ⟨last, redirectedFronted, ?_⟩
    intro name own lacks
    apply redirects
    rintro old (rfl | ⟨rfl, isChannel⟩)
    · exact keeps _ lacks
    · exact keeps _ (own isChannel)
  grind

/-- A turn declares its channel, unless that passes for declared, and no other name. -/
theorem step {modern : Bool} {later : StagePair} (beyond : GoesBeyond fixed)
    (reserved : ∀ name ∈ names, name ∉ reservedWords) (finishes : turn.result modern = .ok later) :
    ∃ lines other, Fronted side names (later.sourceOf side) lines other ∧ GoesBeyond lines ∧
      fixed ⊆ lines ∧
      (turn.isTaken side = false → channelDeclaration modern side turn.channel ∈ lines) ∧
      (∀ name expected, name ≠ turn.channel.name → Shows side name expected fixed back →
        Shows side name expected lines other) ∧
      (Shows side turn.channel.name [] fixed back → Shows side turn.target.name [] fixed back →
        Shows side turn.channel.name
          (if turn.isTaken side then [] else [channelVariable modern turn.channel]) lines other) := by
  obtain ⟨source, isPending, result⟩ := Turn.sourceOf_result finishes side
  obtain ⟨rest, pendingFronted, keeps⟩ := meets.pending fronted isPending
  have clean := (Turn.clean_side meets.fits.clean side).2 source isPending
  have tidy := meets.tidy side
  rw [Turn.isTidy, isPending, Bool.and_eq_true] at tidy
  have others : ∀ name expected, name ≠ turn.channel.name → Shows side name expected fixed back →
      Shows side name expected fixed rest :=
    fun name expected ne shows =>
      ⟨shows.front, keeps name (fun same => absurd same ne) shows.lacks⟩
  have own : Shows side turn.channel.name [] fixed back → Shows side turn.target.name [] fixed back →
      Shows side turn.channel.name [] fixed rest :=
    fun shows target => ⟨shows.front, keeps _ (fun _ => target.lacks) shows.lacks⟩
  have decides : turn.isTaken side = isDeclared side turn.channel source := by
    rw [Turn.isTaken, isPending]
  rw [result, declareChannel, decides]
  cases taken : isDeclared side turn.channel source with
  | true => grind
  | false =>
    rw [declaresCleanly, taken] at clean
    have holds : headerHolds side names source := by simpa [taken] using tidy.2
    obtain ⟨lines, last, insertedFronted, goesBeyond, holdsLines, insertedOthers, insertedOwn⟩ :=
      pendingFronted.insertChannel beyond meets.fits.typeListed meets.fits.named reserved
        meets.different clean holds modern
    exact ⟨lines, last, insertedFronted, goesBeyond,
      fun _ mem => holdsLines (mem_cons_of_mem _ mem),
      fun _ => holdsLines mem_cons_self,
      fun name expected ne shows =>
        insertedOthers name expected ne (others name expected ne shows),
      fun shows target => insertedOwn (own shows target)⟩

end Turn.Meets

/-! All turns. -/

open Compilation (Finishes)

section Run

variable {modern : Bool} {stages result : StagePair} {registry last : ChannelRegistry}
  {listed : List Turn} {names : List String} {side : ChannelSide} {fixed : List String}
  {back : List Char} (runs : Runs modern stages registry listed result last)
  (reserved : ∀ name ∈ names, name ∉ reservedWords) (meets : ∀ turn ∈ listed, turn.Meets names)

include runs reserved meets

theorem run_keeps {expected : List InterfaceVariable}
    (ne : ∀ turn ∈ listed, name ≠ turn.channel.name)
    (fronted : Fronted side names (stages.sourceOf side) fixed back) (beyond : GoesBeyond fixed)
    (shows : Shows side name expected fixed back) :
    (interface side (result.sourceOf side)).filter (·.name == name) = expected := by
  induction runs generalizing fixed back with
  | nil => exact fronted.interface_filter shows
  | cons _ turned _ ih =>
    obtain ⟨here, laterMeets⟩ := forall_mem_cons.mp meets
    obtain ⟨lines, other, laterFronted, laterBeyond, -, -, others, -⟩ :=
      here.step fronted beyond reserved turned
    grind

/-- A channel is declared as its own turn leaves it. -/
theorem run_declares
    (distinct : listed.Pairwise fun first second => first.channel.name ≠ second.channel.name)
    (fronted : Fronted side names (stages.sourceOf side) fixed back) (beyond : GoesBeyond fixed)
    (absent : ∀ turn ∈ listed,
      Shows side turn.channel.name [] fixed back ∧ Shows side turn.target.name [] fixed back)
    {turn : Turn} (mem : turn ∈ listed) :
    (interface side (result.sourceOf side)).filter (·.name == turn.channel.name) =
      if turn.isTaken side then [] else [channelVariable modern turn.channel] := by
  induction runs generalizing fixed back with
  | nil => cases mem
  | cons _ turned further ih =>
    obtain ⟨here, laterMeets⟩ := forall_mem_cons.mp meets
    obtain ⟨apart, laterDistinct⟩ := pairwise_cons.mp distinct
    obtain ⟨own, laterAbsent⟩ := forall_mem_cons.mp absent
    obtain ⟨lines, other, laterFronted, laterBeyond, -, -, others, declares⟩ :=
      here.step fronted beyond reserved turned
    rcases mem_cons.mp mem with rfl | later
    · grind [run_keeps]
    · refine ih laterMeets laterDistinct laterFronted laterBeyond ?_ later
      intro next nextListed
      obtain ⟨channelAbsent, targetAbsent⟩ := laterAbsent next nextListed
      refine ⟨others _ _ (fun same => apart next nextListed same.symm) channelAbsent,
        others _ _ ?_ targetAbsent⟩
      intro same
      exact here.different (same ▸ (laterMeets next nextListed).listed)

end Run

/-! Resolution. -/

theorem lacks_of_hasIdentifier (absent : hasIdentifier name source = false) :
    Lacks side name (lexemes source.toList) := by
  apply lacks_of_absent
  intro piece mem same
  obtain ⟨token, listed, rfl⟩ := mem_map.mp mem
  have refused := any_eq_false.mp absent token listed
  rw [isWord_lexeme, same] at refused
  simp at refused

theorem shows_whole (lacks : Lacks side name (lexemes source.toList)) :
    Shows side name [] [] source.toList :=
  ⟨rfl, lacks⟩

def carriedNames (globals : List GlobalVariable) : List String :=
  (globals.filter isCarried).map GlobalVariable.name

/-- Different globals are carried by channels with different names. -/
theorem Registers.distinct {registry last : ChannelRegistry} {listed : List Turn}
    (registers : Registers registry last listed) (targets : (listed.map (·.target.name)).Nodup) :
    listed.Pairwise fun first second => first.channel.name ≠ second.channel.name := by
  refine (pairwise_map.mp targets).imp_of_mem ?_
  intro first second firstListed secondListed ne same
  apply ne
  rw [← registers.bases first firstListed, ← registers.bases second secondListed,
    registers.named.eq_of_name (registers.listed first firstListed)
      (registers.listed second secondListed) same]

/-- The two stages agree on the channels. Each global that is carried has a channel of its own.
The vertex stage has one declaration of it as an output and the fragment stage has one as an
input, with the same type and flat alike, except where the channel passes for declared before it
is. There the stage has none. -/
theorem resolve_interfaces_agree {options : Options} {constants : List String}
    {globals : List GlobalVariable} {stages : StagePair} {session final : Session}
    {resolved : Resolved} (reached : session.channels.Reached)
    (finishes : Finishes (resolve options constants globals stages) session resolved final)
    (distinct : (globals.map GlobalVariable.name).Nodup)
    (reserved : ∀ target ∈ globals, target.name ∉ reservedWords)
    (apart : ∀ side, numbersApart (lexemes (stages.sourceOf side).toList) = true)
    (undeclared : ∀ side, ∀ name ∈ carriedNames resolved.globals,
      ∀ declared ∈ interface side (stages.sourceOf side), declared.name ≠ name)
    (named : ∀ turn ∈ turns options.modern stages session.channels resolved.globals,
      isName turn.channel.name.toList = true ∧ turn.channel.name ∉ reservedWords)
    (fresh : ∀ side, ∀ turn ∈ turns options.modern stages session.channels resolved.globals,
      hasIdentifier turn.channel.name (stages.sourceOf side) = false)
    (clean : ∀ turn ∈ turns options.modern stages session.channels resolved.globals,
      turn.isClean = true)
    (tidy : ∀ side, ∀ turn ∈ turns options.modern stages session.channels resolved.globals,
      turn.isTidy (carriedNames resolved.globals) side = true) :
    (turns options.modern stages session.channels resolved.globals).map Turn.target =
        resolved.globals.filter isCarried ∧
      ((turns options.modern stages session.channels resolved.globals).map
        (·.channel.name)).Nodup ∧
      ∀ turn ∈ turns options.modern stages session.channels resolved.globals,
        turn.channel.typeName = channelType options.modern turn.target.typeName ∧
          ∀ side, (interface side (resolved.stages.sourceOf side)).filter
              (·.name == turn.channel.name) =
            if turn.isTaken side then [] else [channelVariable options.modern turn.channel] := by
  obtain ⟨classes, carries⟩ := resolve_steps finishes
  have classified := classify_classified classes
  obtain ⟨runs, targets⟩ := runs_turns carries
  have registers := run_registers runs reached.named
  have sameNames := map_name_classify classes
  have channels := registers.distinct <| by
    have carried := (List.filter_sublist (p := isCarried)).map GlobalVariable.name |>.nodup
      (sameNames ▸ distinct)
    rwa [← targets, List.map_map] at carried
  have listed : ∀ turn ∈ turns options.modern stages session.channels resolved.globals,
      turn.target.name ∈ carriedNames resolved.globals := by
    intro turn member
    have takes := mem_turns member
    exact List.mem_map_of_mem (List.mem_filter.mpr ⟨takes.listed, takes.carried⟩)
  have free : ∀ name ∈ carriedNames resolved.globals, name ∉ reservedWords := by
    intro name member
    obtain ⟨target, carried, rfl⟩ := List.mem_map.mp member
    have given := List.mem_map_of_mem (f := GlobalVariable.name) (List.mem_filter.mp carried).1
    rw [sameNames] at given
    obtain ⟨original, originalListed, same⟩ := List.mem_map.mp given
    rw [← same]
    exact reserved original originalListed
  have different : ∀ turn ∈ turns options.modern stages session.channels resolved.globals,
      turn.channel.name ∉ carriedNames resolved.globals := by
    -- a global that is carried is written in the vertex stage, and no channel is named there
    intro turn member absurdity
    obtain ⟨target, carried, same⟩ := List.mem_map.mp absurdity
    obtain ⟨targetListed, isCarried⟩ := List.mem_filter.mp carried
    simp only [Sharing.isCarried, Bool.or_eq_true, beq_iff_eq] at isCarried
    obtain ⟨token, tokenListed, isWord⟩ :=
      classify_written classes targetListed (by simpa using isCarried)
    have refused := List.any_eq_false.mp (fresh .output turn member) token tokenListed
    rw [same] at isWord
    exact refused isWord
  have meets : ∀ turn ∈ turns options.modern stages session.channels resolved.globals,
      turn.Meets (carriedNames resolved.globals) := by
    intro turn member
    exact {
      fits := Turn.fits_empty classified member (clean turn member) (named turn member).1
      carriable := Turn.carriable classified member (clean turn member)
      tidy := fun side => tidy side turn member
      listed := listed turn member
      free := (named turn member).2
      different := different turn member }
  refine ⟨targets, List.pairwise_map.mpr channels, ?_⟩
  intro turn member
  have typed := (isCarriable_parts (meets turn member).carriable).2
  have present : turn.target.typeName ≠ "" := by
    intro empty
    rw [empty] at typed
    exact absurd typed (by decide)
  refine ⟨((mem_turns member).types present).1, ?_⟩
  intro side
  refine run_declares runs free meets channels (fronted_whole side _ (apart side)) (.inl rfl) ?_
    member
  intro other otherListed
  refine ⟨shows_whole (lacks_of_hasIdentifier (fresh side other otherListed)), shows_whole ?_⟩
  have absent := undeclared side _ (listed other otherListed)
  rwa [interface_eq] at absent

/-- A float that becomes a channel and an integer that both stages write. In the vertex stage a
comment that ends with the word of the side stands in front of a statement that returns the float. -/
def shadedGlobals : List GlobalVariable :=
  [⟨"float", "a", none, "", false, .vertexChannel⟩, ⟨"int", "k", none, "", false, .bothStages⟩]

def shadedStages : StagePair where
  vertex := ⟨.vertex, "int k;\nfloat f()\x7b//out\nreturn a;\x7dvoid main()\x7ba=1.;k=1;\x7d\n", [], []⟩
  fragment := ⟨.fragment, "int k;\nvoid main()\x7bk=1;f(a);\x7d\n", [], []⟩

def halfwayStages : StagePair where
  vertex := ⟨.vertex, "int k;\nfloat f()\x7b//out\nreturn v_a;\x7dvoid main()\x7bv_a=1.;k=1;\x7d\n",
    [], []⟩
  fragment := ⟨.fragment, "in float v_a;\nint k;\nvoid main()\x7bk=1;f(v_a);\x7d\n", [], []⟩

def unshadedStages : StagePair where
  vertex := ⟨.vertex, "flat out int v_k;\nint k;\nfloat f()\x7b//out\nreturn v_a;\x7d" ++
    "void main()\x7bv_a=1.;k=1;\x7d\n", [], ["v_k = k;"]⟩
  fragment := ⟨.fragment,
    "flat in int v_k;\nin float v_a;\nint k;\nvoid main()\x7bk=1;f(v_a);\x7d\n", ["k = v_k;"], []⟩

def shadedTurns : List Turn :=
  [⟨⟨"float", "a", none, "", false, .vertexChannel⟩, ⟨"a", "v_a", "float", "float"⟩, shadedStages⟩,
    ⟨⟨"int", "k", none, "", false, .bothStages⟩, ⟨"k", "v_k", "int", "int"⟩, halfwayStages⟩]

theorem resolve_interfaces_agree_shaded :
    Finishes (resolve {} [] shadedGlobals shadedStages) (.fresh "v_")
        ⟨unshadedStages, shadedGlobals⟩
        ⟨⟨"v_", [⟨"a", "v_a", "float", "float"⟩, ⟨"k", "v_k", "int", "int"⟩]⟩, 0⟩ ∧
      (interface .output unshadedStages.vertex.source).filter (·.name == "v_a") = [] ∧
      (interface .input unshadedStages.fragment.source).filter (·.name == "v_a") =
        [⟨false, "float", "v_a"⟩] ∧
      (interface .output unshadedStages.vertex.source).filter (·.name == "v_k") =
        [⟨true, "int", "v_k"⟩] ∧
      (interface .input unshadedStages.fragment.source).filter (·.name == "v_k") =
        [⟨true, "int", "v_k"⟩] := by
  have finishes : Finishes (resolve {} [] shadedGlobals shadedStages) (.fresh "v_")
      ⟨unshadedStages, shadedGlobals⟩
      ⟨⟨"v_", [⟨"a", "v_a", "float", "float"⟩, ⟨"k", "v_k", "int", "int"⟩]⟩, 0⟩ :=
    Compilation.finishes_of_toOption (by decide +kernel)
  have taken : turns ({} : Options).modern shadedStages (Session.fresh "v_").channels shadedGlobals =
      shadedTurns := by decide +kernel
  obtain ⟨-, -, declared⟩ := resolve_interfaces_agree (.empty "v_") finishes (by decide)
    (by decide) (fun side => by cases side <;> decide +kernel)
    (fun side => by cases side <;> decide +kernel) (by rw [taken]; decide +kernel)
    (by rw [taken]; exact fun side => by cases side <;> decide +kernel)
    (by rw [taken]; decide +kernel)
    (by rw [taken]; exact fun side => by cases side <;> decide +kernel)
  rw [taken] at declared
  obtain ⟨-, float⟩ := declared _ List.mem_cons_self
  obtain ⟨-, integer⟩ := declared _ (List.mem_cons_of_mem _ List.mem_cons_self)
  exact ⟨finishes, (float .output).trans (by decide +kernel), (float .input).trans (by decide +kernel),
    (integer .output).trans (by decide +kernel), (integer .input).trans (by decide +kernel)⟩

end WebShader.Sharing
