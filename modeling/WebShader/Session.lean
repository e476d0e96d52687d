import WebShader.Noted
import WebShader.Sharing.Channel

/-!
Contract: the state that the passes of one pipeline share.

Owns: the session, and computations that change one, warn and may fail.

Does not own: who runs them.

A failed computation keeps the changes made before the failure.
-/

namespace WebShader

structure Session where
  channels : ChannelRegistry
  compiledCount : Nat
  deriving DecidableEq, Repr

namespace Session

def fresh (channelPrefix : String) : Session :=
  ⟨.empty channelPrefix, 0⟩

def reset (session : Session) : Session :=
  ⟨session.channels.reset, 0⟩

end Session

abbrev Compilation (α : Type) := ExceptT Fault (StateT Session Noted) α

namespace Compilation

def ofChecked {α : Type} (result : ExceptT Fault Noted α) : Compilation α :=
  ExceptT.mk (liftM result.run)

def ofNoted {α : Type} (result : Noted α) : Compilation α :=
  ofChecked (liftM result)

/-- Runs a computation from a session; the session afterwards is known even if it fails. -/
def runFrom {α : Type} (computation : Compilation α) (session : Session) :
    Noted (Except Fault α × Session) :=
  StateT.run computation.run session

def channelFor (baseName typeName sourceType : String) : Compilation Channel := do
  let session ← getThe Session
  let (channel, channels) := session.channels.channelFor baseName typeName sourceType
  set { session with channels }
  return channel

end Compilation

end WebShader
