/-!
Contract: the channels that carry globals from the vertex to the fragment stage.

Owns: a channel, and the registry that gives each global its channel and each
channel a name of its own.

Does not own: when a global needs a channel; that is `Sharing.Classification`.

A global seen again with another type gets another channel.
-/

namespace WebShader

/-- A channel. `sourceType` is the type of the global it carries, which differs
from the channel's own type where the global cannot travel as it is. -/
structure Channel where
  baseName : String
  name : String
  typeName : String
  sourceType : String
  deriving DecidableEq, Repr

namespace Channel

def converts (channel : Channel) : Bool :=
  channel.typeName != channel.sourceType

/-- An expression of the global's type as a value of the channel. -/
def ofExpression (channel : Channel) (expression : String) : String :=
  if channel.converts then channel.typeName ++ "(" ++ expression ++ ")" else expression

def read (channel : Channel) : String :=
  if channel.converts then channel.sourceType ++ "(" ++ channel.name ++ ")" else channel.name

end Channel

structure ChannelRegistry where
  namePrefix : String
  channels : List Channel
  deriving DecidableEq, Repr

namespace ChannelRegistry

def empty (namePrefix : String) : ChannelRegistry :=
  ⟨namePrefix, []⟩

def size (registry : ChannelRegistry) : Nat :=
  registry.channels.length

def get? (registry : ChannelRegistry) (baseName : String) : Option Channel :=
  registry.channels.find? (·.baseName == baseName)

def contains (registry : ChannelRegistry) (baseName : String) : Bool :=
  (registry.get? baseName).isSome

def reset (registry : ChannelRegistry) : ChannelRegistry :=
  { registry with channels := [] }

/-- The candidate with a number; the first one has none. -/
def candidate (stem : String) (number : Nat) : String :=
  if number ≤ 1 then stem else stem ++ "_" ++ toString number

/-- The first candidate from a number on that is not taken. -/
def freeName (stem : String) (number : Nat) (taken : List String) : String :=
  let name := candidate stem number
  if taken.contains name then freeName stem (number + 1) (taken.erase name) else name
termination_by taken.length
decreasing_by
  rename_i isTaken
  have membership : name ∈ taken := by simpa [name] using isTaken
  have := List.length_pos_of_mem membership
  rw [List.length_erase_of_mem membership]
  omega

def carries (baseName typeName sourceType : String) (channel : Channel) : Bool :=
  channel.baseName == baseName && channel.typeName == typeName && channel.sourceType == sourceType

/-- The channel for a global and its types, allocated on first use. An empty
source type is that of the channel. -/
def channelFor (registry : ChannelRegistry) (baseName typeName sourceType : String) :
    Channel × ChannelRegistry :=
  let source := if sourceType.isEmpty then typeName else sourceType
  match registry.channels.find? (carries baseName typeName source) with
  | some channel => (channel, registry)
  | none =>
    let channel : Channel :=
      { baseName
        name := freeName (registry.namePrefix ++ baseName) 1 (registry.channels.map Channel.name)
        typeName
        sourceType := source }
    (channel, { registry with channels := registry.channels ++ [channel] })

end ChannelRegistry

end WebShader
