import Mathlib.Data.List.Nodup
import WebShader.Proofs.Decimal.Digits
import WebShader.Proofs.Sharing.Carrying

/-!
Contract: the names of channels.

Owns: which name a channel gets, and that no two channels of a session have one
name.

Does not own: whether a source already uses such a name. Channels are named
after their globals, with a prefix that is set for the session, and nobody looks
for the name in the sources.
-/

namespace WebShader

open List

open Sharing

variable {registry : ChannelRegistry} {stem : String}

namespace ChannelRegistry

/-! Candidates. -/

theorem candidate_length_lt (stem : String) {number : Nat} (later : 1 < number) :
    stem.length < (candidate stem number).length := by
  have mark : "_".length = 1 := rfl
  rw [candidate, if_neg (by omega), String.length_append, String.length_append]
  omega

/-- The candidates are all different. -/
theorem candidate_injective {first second : Nat} (firstPositive : 1 ≤ first)
    (secondPositive : 1 ≤ second) (same : candidate stem first = candidate stem second) :
    first = second := by
  rcases Nat.lt_or_ge 1 first with firstLater | firstOne
  · rcases Nat.lt_or_ge 1 second with secondLater | secondOne
    · rw [candidate, candidate, if_neg (by omega), if_neg (by omega)] at same
      have digits : (toString first).toList = (toString second).toList :=
        congrArg String.toList ((String.append_right_inj _).mp same)
      grind [Nat.toList_repr, Decimal.toDigits_injective]
    · have longer := candidate_length_lt stem firstLater
      rw [same, candidate, if_pos secondOne] at longer
      omega
  · rcases Nat.lt_or_ge 1 second with secondLater | secondOne
    · have longer := candidate_length_lt stem secondLater
      rw [← same, candidate, if_pos firstOne] at longer
      omega
    · omega

/-- A name is the candidate with a number, and all candidates before it are taken. -/
structure FirstFree (stem : String) (taken : List String) (name : String) (number : Nat) : Prop where
  positive : 1 ≤ number
  isCandidate : name = candidate stem number
  below : ∀ smaller, 1 ≤ smaller → smaller < number → candidate stem smaller ∈ taken

theorem freeName_firstFree (stem : String) (start : Nat) (taken : List String)
    (positive : 1 ≤ start) :
    freeName stem start taken ∉ taken ∧ ∃ number, start ≤ number ∧
      freeName stem start taken = candidate stem number ∧
      ∀ smaller, start ≤ smaller → smaller < number → candidate stem smaller ∈ taken := by
  induction length : taken.length generalizing start taken with
  | zero =>
    rw [freeName]
    grind
  | succ count ih =>
    rw [freeName]
    split
    next isTaken =>
      have mem : candidate stem start ∈ taken := contains_iff_mem.mp isTaken
      have shorter : (taken.erase (candidate stem start)).length = count := by
        rw [length_erase_of_mem mem]
        omega
      obtain ⟨free, number, atLeast, found, below⟩ :=
        ih (start + 1) (taken.erase (candidate stem start)) (by omega) shorter
      refine ⟨?_, number, by omega, found, ?_⟩
      · -- only the candidate that was passed over is erased, and this one is later
        intro listed
        apply free
        rw [mem_erase_of_ne, found]
        · rwa [found] at listed
        · rw [found]
          intro same
          have equal := candidate_injective (by omega) positive same
          omega
      grind
    grind

/-! Registries. -/

/-- The registries that a session comes to have. -/
inductive Reached : ChannelRegistry → Prop where
  | empty (namePrefix : String) : Reached (.empty namePrefix)
  | allocate {registry : ChannelRegistry} (earlier : Reached registry)
      (baseName typeName sourceType : String) :
      Reached (registry.channelFor baseName typeName sourceType).2
  | reset {registry : ChannelRegistry} (earlier : Reached registry) : Reached registry.reset

/-- Every channel is named after its global, by the first candidate that no channel has. -/
structure Named (registry : ChannelRegistry) : Prop where
  distinct : (registry.channels.map Channel.name).Nodup
  first : ∀ channel ∈ registry.channels, ∃ number,
    FirstFree (registry.namePrefix ++ channel.baseName) (registry.channels.map Channel.name)
      channel.name number

theorem FirstFree.mono {name : String} {taken others : List String} {number : Nat}
    (free : FirstFree stem taken name number) (more : ∀ other ∈ taken, other ∈ others) :
    FirstFree stem others name number :=
  ⟨free.positive, free.isCandidate, fun smaller least less => more _ (free.below smaller least less)⟩

/-- What an allocation gives and leaves. -/
structure Allocates (registry : ChannelRegistry) (baseName : String)
    (allocated : Channel × ChannelRegistry) : Prop where
  base : allocated.1.baseName = baseName
  listed : allocated.1 ∈ allocated.2.channels
  namePrefix : allocated.2.namePrefix = registry.namePrefix
  kept : ∀ channel ∈ registry.channels, channel ∈ allocated.2.channels
  named : allocated.2.Named

theorem Named.channelFor (named : registry.Named) (baseName typeName sourceType : String) :
    Allocates registry baseName (registry.channelFor baseName typeName sourceType) := by
  rw [ChannelRegistry.channelFor]
  split
  next channel found =>
    have carries := find?_some found
    simp only [ChannelRegistry.carries, Bool.and_eq_true, beq_iff_eq] at carries
    exact ⟨carries.1.1, mem_of_find?_eq_some found, rfl, fun _ mem => mem, named⟩
  · obtain ⟨free, number, positive, isCandidate, below⟩ := freeName_firstFree
      (registry.namePrefix ++ baseName) 1 (registry.channels.map Channel.name) (Nat.le_refl 1)
    refine ⟨rfl, mem_append_right _ (mem_singleton.mpr rfl), rfl,
      fun _ mem => mem_append_left _ mem, ?_, ?_⟩
    · rw [map_append, map_cons]
      apply nodup_append.mpr
      refine ⟨named.distinct, nodup_singleton _, ?_⟩
      grind
    · have more : ∀ name ∈ registry.channels.map Channel.name, ∀ channel : Channel,
          name ∈ (registry.channels ++ [channel]).map Channel.name := by
        intro name listed channel
        rw [map_append]
        exact mem_append_left _ listed
      intro channel listed
      rcases mem_append.mp listed with old | new
      · obtain ⟨number, first⟩ := named.first channel old
        exact ⟨number, first.mono fun name mem => more name mem _⟩
      · rw [mem_singleton.mp new]
        exact ⟨number, positive, isCandidate,
          fun smaller least less => more _ (below smaller least less) _⟩

theorem Reached.named (reached : registry.Reached) : registry.Named := by
  induction reached with
  | empty _ => exact ⟨nodup_nil, fun _ mem => absurd mem not_mem_nil⟩
  | allocate _ baseName typeName sourceType ih =>
    exact (ih.channelFor baseName typeName sourceType).named
  | reset _ _ => exact ⟨nodup_nil, fun _ mem => absurd mem not_mem_nil⟩

theorem Named.eq_of_name (named : registry.Named) {first second : Channel}
    (firstListed : first ∈ registry.channels) (secondListed : second ∈ registry.channels)
    (same : first.name = second.name) : first = second :=
  inj_on_of_nodup_map named.distinct firstListed secondListed same

end ChannelRegistry

namespace Sharing

open Compilation (Finishes)
open ChannelRegistry (Reached Named FirstFree candidate)

/-! Channels of a run. -/

/-- A run leaves a registry in which every channel of the run is listed. -/
structure Registers (registry last : ChannelRegistry) (listed : List Turn) : Prop where
  bases : ∀ turn ∈ listed, turn.channel.baseName = turn.target.name
  listed : ∀ turn ∈ listed, turn.channel ∈ last.channels
  kept : ∀ channel ∈ registry.channels, channel ∈ last.channels
  namePrefix : last.namePrefix = registry.namePrefix
  named : last.Named

theorem run_registers {modern : Bool} {stages result : StagePair} {last : ChannelRegistry}
    {listed : List Turn} (runs : Runs modern stages registry listed result last)
    (named : registry.Named) : Registers registry last listed := by
  induction runs with
  | nil =>
    exact ⟨forall_mem_nil _, forall_mem_nil _, fun _ mem => mem, rfl, named⟩
  | @cons turn _ _ _ _ _ _ allocates _ _ ih =>
    have allocated := named.channelFor turn.target.name (channelType modern turn.target.typeName)
      turn.target.typeName
    rw [allocates] at allocated
    have registers := ih allocated.named
    refine ⟨forall_mem_cons.mpr ⟨allocated.base, registers.bases⟩,
      forall_mem_cons.mpr ⟨registers.kept _ allocated.listed, registers.listed⟩, ?_,
      registers.namePrefix.trans allocated.namePrefix, registers.named⟩
    intro channel mem
    exact registers.kept channel (allocated.kept channel mem)

/-- Whether a source has an identifier with a name. -/
def hasIdentifier (name source : String) : Bool :=
  (Token.lex source).any (·.isWord name)

/-- Each global that is carried has a channel that is named after it by the session's prefix, with
a number if channels of the session have the names before. No other channel of the session has
the name, and no identifier of the sources has it unless some identifier is so named. -/
theorem resolve_channel_names {options : Options} {constants : List String}
    {globals : List GlobalVariable} {stages : StagePair} {session final : Session}
    {resolved : Resolved} (reached : session.channels.Reached)
    (finishes : Finishes (resolve options constants globals stages) session resolved final) :
    (turns options.modern stages session.channels resolved.globals).map Turn.target =
        resolved.globals.filter isCarried ∧
      ∀ turn ∈ turns options.modern stages session.channels resolved.globals,
        ∃ number, FirstFree (session.channels.namePrefix ++ turn.target.name)
            (final.channels.channels.map Channel.name) turn.channel.name number ∧
          (∀ channel ∈ final.channels.channels, channel.name = turn.channel.name →
            channel = turn.channel) ∧
          ∀ source ∈ [stages.vertex.source, stages.fragment.source],
            (∀ other, 1 ≤ other → hasIdentifier
              (candidate (session.channels.namePrefix ++ turn.target.name) other) source = false) →
            hasIdentifier turn.channel.name source = false := by
  obtain ⟨-, carries⟩ := resolve_finishes finishes
  obtain ⟨runs, targets⟩ := runs_turns carries
  have registers := run_registers runs reached.named
  refine ⟨targets, ?_⟩
  intro turn member
  have listed := registers.listed turn member
  obtain ⟨number, first⟩ := registers.named.first _ listed
  rw [registers.namePrefix, registers.bases turn member] at first
  refine ⟨number, first, fun channel other same => registers.named.eq_of_name other listed same, ?_⟩
  intro source _ absent
  rw [first.isCandidate]
  exact absent number first.positive

theorem hasIdentifier_false_of_prefix {source : String} (number : Nat)
    (absent : (Token.lex source).all (fun token => !stem.toList.isPrefixOf token.text.toList)) :
    hasIdentifier (candidate stem number) source = false := by
  apply Bool.eq_false_iff.mpr
  intro present
  obtain ⟨token, mem, word⟩ := any_eq_true.mp present
  simp only [Token.isWord] at word
  grind [candidate, String.toList_append]

/-- An integer that is carried in a session that has carried a float of the same name. -/
def integerGlobals : List GlobalVariable :=
  [⟨"int", "a", none, "", false, .unclassified⟩]

def integerStages : StagePair where
  vertex := ⟨.vertex, "int a;\nvoid main() \x7b a = 1; \x7d\n", [], []⟩
  fragment := ⟨.fragment, "int a;\nvoid main() \x7b f(a); \x7d\n", [], []⟩

def carriedStages : StagePair where
  vertex := ⟨.vertex, "flat out int v_a_2;\nvoid main() \x7b v_a_2 = 1; \x7d\n", [], []⟩
  fragment := ⟨.fragment, "flat in int v_a_2;\nvoid main() \x7b f(v_a_2); \x7d\n", [], []⟩

theorem resolve_channel_names_again :
    Finishes (resolve {} [] integerGlobals integerStages)
        ⟨((ChannelRegistry.empty "v_").channelFor "a" "float" "float").2, 0⟩
        ⟨carriedStages, integerGlobals.map ({ · with sharing := .vertexChannel })⟩
        ⟨⟨"v_", [⟨"a", "v_a", "float", "float"⟩, ⟨"a", "v_a_2", "int", "int"⟩]⟩, 0⟩ ∧
      (∃ number, FirstFree "v_a" ["v_a", "v_a_2"] "v_a_2" number) ∧
      hasIdentifier "v_a_2" integerStages.vertex.source = false ∧
      hasIdentifier "v_a_2" integerStages.fragment.source = false := by
  have finishes : Finishes (resolve {} [] integerGlobals integerStages)
      ⟨((ChannelRegistry.empty "v_").channelFor "a" "float" "float").2, 0⟩
      ⟨carriedStages, integerGlobals.map ({ · with sharing := .vertexChannel })⟩
      ⟨⟨"v_", [⟨"a", "v_a", "float", "float"⟩, ⟨"a", "v_a_2", "int", "int"⟩]⟩, 0⟩ :=
    Compilation.finishes_of_toOption (by decide +kernel)
  obtain ⟨-, named⟩ := resolve_channel_names (.allocate (.empty "v_") "a" "float" "float") finishes
  obtain ⟨number, first, -, fresh⟩ := named
    ⟨⟨"int", "a", none, "", false, .vertexChannel⟩, ⟨"a", "v_a_2", "int", "int"⟩, integerStages⟩
    (by decide +kernel)
  refine ⟨finishes, ⟨number, first⟩, fresh _ List.mem_cons_self ?_,
    fresh _ (List.mem_cons_of_mem _ List.mem_cons_self) ?_⟩
  · exact fun other _ => hasIdentifier_false_of_prefix other (by decide +kernel)
  · exact fun other _ => hasIdentifier_false_of_prefix other (by decide +kernel)

def prefixedGlobals : List GlobalVariable :=
  [⟨"float", "a", none, "", false, .unclassified⟩]

def prefixedStages : StagePair where
  vertex := ⟨.vertex, "float a;\nfloat v_a;\nvoid main() \x7b a = 1.0; v_a = 2.0; \x7d\n", [], []⟩
  fragment := ⟨.fragment, "float a;\nout vec4 c;\nvoid main() \x7b c = vec4(a); \x7d\n", [], []⟩

def capturedStages : StagePair where
  vertex := ⟨.vertex,
    "out float v_a;\nfloat v_a;\nvoid main() \x7b v_a = 1.0; v_a = 2.0; \x7d\n", [], []⟩
  fragment := ⟨.fragment,
    "in float v_a;\nout vec4 c;\nvoid main() \x7b c = vec4(v_a); \x7d\n", [], []⟩

theorem resolve_captures_prefixed :
    Finishes (resolve {} [] prefixedGlobals prefixedStages) (.fresh "v_")
        ⟨capturedStages, prefixedGlobals.map ({ · with sharing := .vertexChannel })⟩
        ⟨⟨"v_", [⟨"a", "v_a", "float", "float"⟩]⟩, 0⟩ ∧
      hasIdentifier "v_a" prefixedStages.vertex.source = true :=
  ⟨Compilation.finishes_of_toOption (by decide +kernel), by decide +kernel⟩

end Sharing

end WebShader
