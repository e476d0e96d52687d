import Mathlib.Data.Bool.Basic
import WebShader.Proofs.Sharing.ChannelNames

/-!
Contract: the answers of a registry over a run of requests and resets.

Owns: the history of a registry, and what its answers since the last reset have
in common: one channel for a global with its types, and a name for each channel.

Does not own: the search for a free name; that is `ChannelNames`.

A second type of a global and another global may ask for one name, as `X` with a
second type and `X_2` do. The table of channels is the table of taken names, so
the later request goes on to the next number.
-/

namespace WebShader

open List

/-- What tells channels apart. -/
def Channel.key (channel : Channel) : String × String × String :=
  (channel.baseName, channel.typeName, channel.sourceType)

namespace ChannelRegistry

structure Request where
  baseName : String
  typeName : String
  sourceType : String
  deriving DecidableEq, Repr

def Request.key (request : Request) : String × String × String :=
  (request.baseName, request.typeName,
    if request.sourceType.isEmpty then request.typeName else request.sourceType)

inductive Call where
  | request (request : Request)
  | reset
  deriving DecidableEq, Repr

/-- A request and the channel that answers it. -/
structure Grant where
  request : Request
  channel : Channel
  deriving DecidableEq, Repr

/-- A registry and what it has granted since its last reset. -/
structure History where
  registry : ChannelRegistry
  grants : List Grant
  deriving DecidableEq, Repr

def History.step (history : History) : Call → History
  | .request request =>
    let allocated :=
      history.registry.channelFor request.baseName request.typeName request.sourceType
    ⟨allocated.2, history.grants ++ [⟨request, allocated.1⟩]⟩
  | .reset => ⟨history.registry.reset, []⟩

/-- The history that a sequence of calls leaves. -/
def History.after (namePrefix : String) (calls : List Call) : History :=
  calls.foldl History.step ⟨.empty namePrefix, []⟩

/-! One request. -/

theorem carries_iff (request : Request) (channel : Channel) :
    carries request.baseName request.typeName
        (if request.sourceType.isEmpty then request.typeName else request.sourceType) channel =
      true ↔ channel.key = request.key := by
  simp only [carries, Channel.key, Request.key, Bool.and_eq_true, beq_iff_eq, Prod.mk.injEq, and_assoc]

/-- A request finds the channel of its key, or adds one with a free name. -/
theorem channelFor_cases (registry : ChannelRegistry) (request : Request) :
    (∃ channel ∈ registry.channels, channel.key = request.key ∧
        registry.channelFor request.baseName request.typeName request.sourceType =
          (channel, registry)) ∨
      (∀ channel ∈ registry.channels, channel.key ≠ request.key) ∧
        ∃ channel : Channel, channel.key = request.key ∧
          registry.channelFor request.baseName request.typeName request.sourceType =
            (channel, { registry with channels := registry.channels ++ [channel] }) := by
  rw [channelFor]
  split
  next channel found =>
    exact .inl ⟨channel, mem_of_find?_eq_some found,
      (carries_iff request channel).mp (find?_some found), rfl⟩
  next absent =>
    refine .inr ⟨?_, _, rfl, rfl⟩
    grind [carries_iff]

/-! Runs. -/

/-- What holds of a registry and its grants after every run. -/
structure History.Lawful (namePrefix : String) (history : History) : Prop where
  namePrefix_eq : history.registry.namePrefix = namePrefix
  named : history.registry.Named
  keyed : (history.registry.channels.map Channel.key).Nodup
  granted : ∀ grant ∈ history.grants,
    grant.channel ∈ history.registry.channels ∧ grant.channel.key = grant.request.key
  first : ∀ baseName, history.registry.get? baseName =
    (history.grants.find? (·.request.baseName == baseName)).map Grant.channel

namespace History.Lawful

variable {namePrefix : String} {history : History}

theorem start (namePrefix : String) : Lawful namePrefix ⟨.empty namePrefix, []⟩ where
  namePrefix_eq := rfl
  named := (Reached.empty namePrefix).named
  keyed := nodup_nil
  granted := fun _ mem => absurd mem not_mem_nil
  first := fun _ => rfl

theorem reset (lawful : Lawful namePrefix history) : Lawful namePrefix (history.step .reset) where
  namePrefix_eq := lawful.namePrefix_eq
  named := ⟨nodup_nil, fun _ mem => absurd mem not_mem_nil⟩
  keyed := nodup_nil
  granted := fun _ mem => absurd mem not_mem_nil
  first := fun _ => rfl

theorem baseName_eq {channel : Channel} {request : Request} (same : channel.key = request.key) :
    channel.baseName = request.baseName :=
  congrArg Prod.fst same

/-- A global with a channel has been granted one before. -/
theorem find?_ne_none (lawful : Lawful namePrefix history) {channel : Channel}
    (listed : channel ∈ history.registry.channels) :
    history.grants.find? (·.request.baseName == channel.baseName) ≠ none := by
  intro absent
  have unknown := lawful.first channel.baseName
  rw [get?] at unknown
  grind

theorem request (lawful : Lawful namePrefix history) (request : Request) :
    Lawful namePrefix (history.step (.request request)) := by
  have allocates := lawful.named.channelFor request.baseName request.typeName request.sourceType
  rcases channelFor_cases history.registry request with
    ⟨channel, listed, same, shape⟩ | ⟨fresh, channel, same, shape⟩
  · rw [step, shape]
    refine ⟨lawful.namePrefix_eq, lawful.named, lawful.keyed, ?_, ?_⟩
    · intro grant mem
      rcases mem_append.mp mem with old | new
      · exact lawful.granted grant old
      grind
    · intro baseName
      rw [lawful.first, find?_append]
      -- the new grant is the first for no global: this one has a channel already
      by_cases isBase : request.baseName = baseName
      · have known := lawful.find?_ne_none listed
        rw [baseName_eq same, isBase] at known
        obtain ⟨earlier, found⟩ := Option.ne_none_iff_exists'.mp known
        rw [found]
        rfl
      grind
  · rw [shape] at allocates
    rw [step, shape]
    refine ⟨lawful.namePrefix_eq, allocates.named, ?_, ?_, ?_⟩
    · rw [map_append]
      refine nodup_append.mpr ⟨lawful.keyed, nodup_singleton _, ?_⟩
      grind
    · intro grant mem
      rcases mem_append.mp mem with old | new
      · exact ⟨mem_append_left _ (lawful.granted grant old).1, (lawful.granted grant old).2⟩
      grind
    · intro baseName
      have earlier := lawful.first baseName
      grind [get?, baseName_eq]

theorem step (lawful : Lawful namePrefix history) (call : Call) :
    Lawful namePrefix (history.step call) := by
  cases call with
  | request request => exact lawful.request request
  | reset => exact lawful.reset

end History.Lawful

theorem History.lawful_after (namePrefix : String) (calls : List Call) :
    Lawful namePrefix (after namePrefix calls) :=
  List.foldlRecOn calls History.step (.start namePrefix) fun _ lawful call _ => lawful.step call

/-- After every run of requests and resets, and so before every later call, two requests since the
last reset have one name iff they ask for one global with the same types, and then they have one
channel. A channel is named after its global, alone or with a number from two on; the search for a
free name ends, at the first one that no channel has. The channel found for a global is the first
that was granted for it since the last reset, and a global is contained iff there is one. -/
theorem run_channels_injective (namePrefix : String) (calls : List Call) :
    let history := History.after namePrefix calls
    (∀ first ∈ history.grants, ∀ second ∈ history.grants,
        (first.channel.name = second.channel.name ↔ first.request.key = second.request.key) ∧
          (first.request.key = second.request.key → first.channel = second.channel)) ∧
      (∀ grant ∈ history.grants, grant.channel.key = grant.request.key ∧
        (grant.channel.name = namePrefix ++ grant.request.baseName ∨ ∃ number, 2 ≤ number ∧
          grant.channel.name =
            namePrefix ++ grant.request.baseName ++ "_" ++ toString number)) ∧
      (∀ baseName, ∃ number,
        FirstFree (namePrefix ++ baseName) (history.registry.channels.map Channel.name)
            (candidate (namePrefix ++ baseName) number) number ∧
          candidate (namePrefix ++ baseName) number ∉ history.registry.channels.map Channel.name ∧
          freeName (namePrefix ++ baseName) 1 (history.registry.channels.map Channel.name) =
            candidate (namePrefix ++ baseName) number) ∧
      (∀ baseName, history.registry.get? baseName =
        (history.grants.find? (·.request.baseName == baseName)).map Grant.channel) ∧
      ∀ baseName, history.registry.contains baseName = true ↔
        ∃ grant ∈ history.grants, grant.request.baseName = baseName := by
  intro history
  have lawful : History.Lawful namePrefix history := History.lawful_after namePrefix calls
  refine ⟨?_, ?_, ?_, lawful.first, ?_⟩
  · intro first firstMember second secondMember
    obtain ⟨firstListed, firstKey⟩ := lawful.granted first firstMember
    obtain ⟨secondListed, secondKey⟩ := lawful.granted second secondMember
    have one : first.request.key = second.request.key → first.channel = second.channel := by
      intro same
      apply List.inj_on_of_nodup_map lawful.keyed firstListed secondListed
      rw [firstKey, secondKey, same]
    refine ⟨⟨?_, fun same => congrArg Channel.name (one same)⟩, one⟩
    intro sameName
    rw [← firstKey, ← secondKey, lawful.named.eq_of_name firstListed secondListed sameName]
  · intro grant member
    obtain ⟨listed, key⟩ := lawful.granted grant member
    obtain ⟨number, first⟩ := lawful.named.first grant.channel listed
    rw [lawful.namePrefix_eq, History.Lawful.baseName_eq key] at first
    refine ⟨key, ?_⟩
    rw [first.isCandidate, candidate]
    grind
  · intro baseName
    obtain ⟨free, number, positive, found, below⟩ := freeName_firstFree (namePrefix ++ baseName) 1
      (history.registry.channels.map Channel.name) (Nat.le_refl 1)
    rw [found] at free
    exact ⟨number, ⟨positive, rfl, below⟩, free, found⟩
  · intro baseName
    rw [contains, lawful.first, Option.isSome_map, List.find?_isSome]
    simp only [beq_iff_eq]

/-- A second type of `a` and the global `a_2` ask for one name. -/
def collidingCalls : List Call :=
  [.request ⟨"a_2", "float", ""⟩, .reset, .request ⟨"a", "float", ""⟩,
    .request ⟨"a", "int", "bool"⟩, .request ⟨"a_2", "float", "float"⟩]

theorem run_channels_injective_colliding :
    History.after "v_" collidingCalls =
        ⟨⟨"v_", [⟨"a", "v_a", "float", "float"⟩, ⟨"a", "v_a_2", "int", "bool"⟩,
            ⟨"a_2", "v_a_2_2", "float", "float"⟩]⟩,
          [⟨⟨"a", "float", ""⟩, ⟨"a", "v_a", "float", "float"⟩⟩,
            ⟨⟨"a", "int", "bool"⟩, ⟨"a", "v_a_2", "int", "bool"⟩⟩,
            ⟨⟨"a_2", "float", "float"⟩, ⟨"a_2", "v_a_2_2", "float", "float"⟩⟩]⟩ ∧
      (("v_a_2" = "v_a_2_2") ↔ (("a", "int", "bool") = ("a_2", "float", "float"))) ∧
      (History.after "v_" collidingCalls).registry.contains "a_2" = true := by
  have run : History.after "v_" collidingCalls =
      ⟨⟨"v_", [⟨"a", "v_a", "float", "float"⟩, ⟨"a", "v_a_2", "int", "bool"⟩,
          ⟨"a_2", "v_a_2_2", "float", "float"⟩]⟩,
        [⟨⟨"a", "float", ""⟩, ⟨"a", "v_a", "float", "float"⟩⟩,
          ⟨⟨"a", "int", "bool"⟩, ⟨"a", "v_a_2", "int", "bool"⟩⟩,
          ⟨⟨"a_2", "float", "float"⟩, ⟨"a_2", "v_a_2_2", "float", "float"⟩⟩]⟩ := by
    decide +kernel
  obtain ⟨injective, -, -, -, contained⟩ := run_channels_injective "v_" collidingCalls
  refine ⟨run, ?_, (contained "a_2").mpr ?_⟩
  · simp
  simp_all

end ChannelRegistry

end WebShader
