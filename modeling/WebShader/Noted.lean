import WebShader.Warning

/-!
Contract: results that come with warnings.

Owns: a value together with the warnings given while it was computed, in order.

Does not own: failure. The value of a composed computation is the composition
of the values, whatever was noted on the way.
-/

namespace WebShader

structure Noted (α : Type) where
  value : α
  warnings : List Warning

namespace Noted

def note (warning : Warning) : Noted Unit :=
  ⟨(), [warning]⟩

instance : Monad Noted where
  pure value := ⟨value, []⟩
  bind first next :=
    let second := next first.value
    ⟨second.value, first.warnings ++ second.warnings⟩

/-- Notes a warning if a condition holds. -/
def noteIf (flag : Bool) (warning : Warning) : Noted Unit :=
  if flag then note warning else pure ()

@[simp] theorem value_pure {α : Type} (value : α) : (pure value : Noted α).value = value := rfl

@[simp] theorem warnings_pure {α : Type} (value : α) : (pure value : Noted α).warnings = [] := rfl

@[simp] theorem value_bind {α β : Type} (first : Noted α) (next : α → Noted β) :
    (first >>= next).value = (next first.value).value := rfl

@[simp] theorem warnings_bind {α β : Type} (first : Noted α) (next : α → Noted β) :
    (first >>= next).warnings = first.warnings ++ (next first.value).warnings := rfl

instance : LawfulMonad Noted :=
  LawfulMonad.mk' Noted
    (fun noted => by
      cases noted
      simp [Functor.map])
    (fun _ _ => by simp [bind, pure])
    (fun _ _ _ => by simp [bind, List.append_assoc])

end Noted

end WebShader
