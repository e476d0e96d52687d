import WebShader.Session

/-!
Contract: what a finished computation tells of its parts.

Owns: one inversion law per way of composing computations.
-/

namespace WebShader


variable {final session : Session} {α β : Type}

theorem bind_value_ok {first : ExceptT Fault Noted α} {next : α → ExceptT Fault Noted β}
    {result : β} (returned : (first >>= next).run.value = .ok result) :
    ∃ middle, first.run.value = .ok middle ∧ (next middle).run.value = .ok result := by
  rw [ExceptT.run_bind, Noted.value_bind] at returned
  cases outcome : first.run.value with
  | error fault =>
    rw [outcome] at returned
    cases returned
  | ok middle => grind

theorem lift_value_ok {outcome : Except Fault α} {result : α}
    (returned : (liftM outcome : ExceptT Fault Noted α).run.value = .ok result) :
    outcome = .ok result := by
  cases outcome with
  | error fault => cases returned
  | ok value =>
    cases returned
    rfl

theorem eq_ok_of_toOption {outcome : Except Fault α} {result : α}
    (returned : outcome.toOption = some result) : outcome = .ok result := by
  cases outcome with
  | error fault => cases returned
  | ok value =>
    cases returned
    rfl

theorem ok_bind (value : α) (next : α → Except Fault β) :
    (Except.ok value >>= next) = next value := rfl

theorem bind_ok {first : Except Fault α} {next : α → Except Fault β} {result : β}
    (returned : first >>= next = .ok result) :
    ∃ middle, first = .ok middle ∧ next middle = .ok result := by
  cases first with
  | error fault => cases returned
  | ok middle => exact ⟨middle, rfl, returned⟩

/-! What every step of a loop keeps. -/

theorem foldlM_keeps {holds : β → Prop} {step : β → α → Noted β}
    (keeps : ∀ state item, holds state → holds (step state item).value) (items : List α) {start : β}
    (initial : holds start) : holds (items.foldlM step start).value := by
  induction items generalizing start with
  | nil => exact initial
  | cons item rest ih =>
    exact ih (keeps start item initial)

theorem foldlM_ok_keeps {holds : β → Prop} {step : β → α → ExceptT Fault Noted β}
    (keeps : ∀ state item next, holds state → (step state item).run.value = .ok next → holds next)
    {items : List α} {start final : β} (initial : holds start)
    (returned : (items.foldlM step start).run.value = .ok final) : holds final := by
  induction items generalizing start with
  | nil =>
    cases returned
    exact initial
  | cons item rest ih =>
    obtain ⟨next, steps, further⟩ := bind_value_ok returned
    grind

/-! Computations with a state. -/

/-- What a computation comes to: a result or a fault, and the state in both cases. -/
def outcome {σ α : Type} (computation : ExceptT Fault (StateT σ Noted) α) (state : σ) :
    Except Fault α × σ :=
  (StateT.run computation.run state).value

section Outcome

variable {σ α β : Type} {first : ExceptT Fault (StateT σ Noted) α} {state after : σ}

theorem outcome_pure (value : α) (state : σ) :
    outcome (pure value : ExceptT Fault (StateT σ Noted) α) state = (.ok value, state) := rfl

theorem outcome_bind_ok {value : α} (finishes : outcome first state = (.ok value, after))
    (next : α → ExceptT Fault (StateT σ Noted) β) :
    outcome (first >>= next) state = outcome (next value) after := by
  rw [outcome] at finishes
  rw [outcome, ExceptT.run_bind, StateT.run_bind, Noted.value_bind, finishes]
  rfl

theorem outcome_bind_error {fault : Fault} (fails : outcome first state = (.error fault, after))
    (next : α → ExceptT Fault (StateT σ Noted) β) :
    outcome (first >>= next) state = (.error fault, after) := by
  rw [outcome] at fails
  rw [outcome, ExceptT.run_bind, StateT.run_bind, Noted.value_bind, fails]
  rfl

end Outcome

namespace Compilation

def Finishes {α : Type} (computation : Compilation α) (session : Session) (result : α)
    (final : Session) : Prop :=
  (computation.runFrom session).value = (.ok result, final)

theorem finishes_of_toOption {computation : Compilation α} {result : α}
    (returned : (computation.runFrom session).value.map Except.toOption id = (some result, final)) :
    Finishes computation session result final := by
  obtain ⟨first, second⟩ := Prod.mk.inj returned
  exact Prod.ext (eq_ok_of_toOption first) second

theorem Finishes.bind {first : Compilation α} {next : α → Compilation β} {result : β}
    (finishes : Finishes (first >>= next) session result final) :
    ∃ middle between, Finishes first session middle between ∧
      Finishes (next middle) between result final := by
  rw [Finishes, runFrom, ExceptT.run_bind, StateT.run_bind, Noted.value_bind] at finishes
  cases outcome : (first.runFrom session).value with
  | mk value between =>
    rw [runFrom] at outcome
    rw [outcome] at finishes
    cases value with
    | error fault => cases finishes
    | ok middle => exact ⟨middle, between, outcome, finishes⟩

theorem Finishes.pure {value result : α}
    (finishes : Finishes (Pure.pure value : Compilation α) session result final) :
    result = value ∧ final = session := by
  cases finishes
  exact ⟨rfl, rfl⟩

theorem Finishes.lift {outcome : Except Fault α} {result : α}
    (finishes : Finishes (liftM outcome : Compilation α) session result final) :
    outcome = .ok result ∧ final = session := by
  cases outcome with
  | error fault => cases finishes
  | ok value =>
    cases finishes
    exact ⟨rfl, rfl⟩

theorem Finishes.ofChecked {checked : ExceptT Fault Noted α} {result : α}
    (finishes : Finishes (ofChecked checked) session result final) :
    checked.run.value = .ok result ∧ final = session := by
  have shape : (checked.run.value, session) = (.ok result, final) := finishes
  grind

end Compilation

end WebShader
