import WebShader.Proofs.Include.Trace

/-!
Contract: every expansion ends, and its stack never holds a file twice.

Owns: the stacks at which files are asked for, when the limit on nesting is
hit, and a bound that keeps it from being hit.

The stack grows by files that could be had and were not on it. So it has no
more entries than there are such files, whatever the files include.
-/

namespace WebShader.Include

open List Text

/-- A meeting at which the limit on nesting is exceeded. -/
structure Meeting.Overflows (settings : Settings) (meeting : Meeting) : Prop where
  apart : meeting.target ∉ meeting.stack
  tooDeep : settings.maxDepth < meeting.stack.length

/-- A meeting below a stack: files that could be had have been opened in between. -/
structure Meeting.Below (settings : Settings) (stack : List String) (meeting : Meeting) : Prop where
  opened : ∃ between, meeting.stack = stack ++ between ∧
    ∀ path ∈ between, ∃ text, settings.files path = .ok text
  distinct : stack.Nodup → meeting.stack.Nodup

namespace Meeting.Below

variable {settings : Settings} {stack : List String} {meeting : Meeting} {target text : String}

theorem here : Meeting.Below settings stack ⟨stack, target⟩ :=
  ⟨⟨[], by simp, by simp⟩, id⟩

/-- What lies below a file that was opened lies below the stack under it. -/
theorem of_push (below : meeting.Below settings (stack ++ [target])) (apart : target ∉ stack)
    (fetches : settings.files target = .ok text) : meeting.Below settings stack := by
  obtain ⟨⟨between, grown, had⟩, distinct⟩ := below
  refine ⟨⟨target :: between, by simp [grown], ?_⟩, fun single => distinct ?_⟩
  · grind
  grind

/-- Stacks are bounded by the number of files that can be had. -/
theorem length_le {path : String} {available : List String} (below : meeting.Below settings [path])
    (covered : ∀ path text, settings.files path = .ok text → path ∈ available) :
    meeting.stack.length ≤ available.length + 1 := by
  obtain ⟨⟨between, grown, had⟩, distinct⟩ := below
  have single : between.Nodup := by
    have whole := distinct (by simp)
    rw [grown] at whole
    exact (nodup_append.mp whole).2.1
  have inside : between ⊆ available := by
    intro other mem
    obtain ⟨text, fetches⟩ := had other mem
    exact covered other text fetches
  have bound := single.length_le_of_subset inside
  rw [grown, length_append, length_singleton]
  omega

end Meeting.Below

/-- Files are asked for at live includes. -/
theorem mem_meetings_of_mem_fetches {events : List Event} {meeting : Meeting}
    (mem : meeting ∈ fetches events) : meeting ∈ meetings events := by
  obtain ⟨event, listed, asked⟩ := mem_filterMap.mp mem
  refine mem_filterMap.mpr ⟨event, listed, ?_⟩
  cases event <;> simp_all [Event.fetch?, Event.meeting?]

section Rules

variable {settings : Settings} {stack macros sourceLines : List String} {path : String}
  {branches : List Branch} {events : List Event} {ending : Except Fault (List String)}

theorem Expands.stacks
    (expands : Expands settings stack path branches macros sourceLines events ending) :
    ∀ meeting ∈ meetings events, meeting.Below settings stack := by
  induction expands with
  | done => simp [meetings]
  | kept _ _ laterIh | skipped _ _ _ laterIh => exact laterIh
  | circular _ _ _ laterIh | failed _ _ _ _ laterIh =>
    exact forall_mem_cons.mpr ⟨.here, laterIh⟩
  | refused | broken => exact forall_mem_singleton.mpr .here
  | opened asks fetches _ _ insideHypothesis laterIh =>
    refine forall_mem_cons.mpr ⟨.here, ?_⟩
    rw [filterMap_append, forall_mem_append]
    exact ⟨fun meeting mem => (insideHypothesis meeting mem).of_push asks.apart fetches,
      laterIh⟩
  | stopped asks fetches _ insideHypothesis =>
    exact forall_mem_cons.mpr ⟨.here, fun meeting mem =>
      (insideHypothesis meeting mem).of_push asks.apart fetches⟩

/-- A file is asked for only if it is not on the stack and the stack is within the limit. -/
theorem Expands.fetches_within
    (expands : Expands settings stack path branches macros sourceLines events ending) :
    ∀ meeting ∈ fetches events,
      meeting.target ∉ meeting.stack ∧ meeting.stack.length ≤ settings.maxDepth := by
  induction expands with
  | done | refused => simp [fetches, Event.fetch?]
  | kept _ _ laterIh | skipped _ _ _ laterIh
  | circular _ _ _ laterIh => exact laterIh
  | failed asks _ _ _ laterIh =>
    exact forall_mem_cons.mpr ⟨⟨asks.apart, Int.not_lt.mp asks.within⟩, laterIh⟩
  | broken asks =>
    exact forall_mem_singleton.mpr ⟨asks.apart, Int.not_lt.mp asks.within⟩
  | opened asks _ _ _ insideHypothesis laterIh =>
    refine forall_mem_cons.mpr ⟨⟨asks.apart, Int.not_lt.mp asks.within⟩, ?_⟩
    rw [filterMap_append, forall_mem_append]
    exact ⟨insideHypothesis, laterIh⟩
  | stopped asks _ _ insideHypothesis =>
    exact forall_mem_cons.mpr ⟨⟨asks.apart, Int.not_lt.mp asks.within⟩, insideHypothesis⟩

theorem Asks.not_overflows {line target : String}
    (asks : Asks settings stack path branches line target) :
    ¬Meeting.Overflows settings ⟨stack, target⟩ :=
  fun overflows => asks.within overflows.tooDeep

/-- A meeting beyond the limit ends the expansion. -/
theorem Expands.ends_of_overflow
    (expands : Expands settings stack path branches macros sourceLines events ending) :
    ∀ meeting ∈ meetings events, meeting.Overflows settings →
      ending = .error (.includeTooDeep meeting.target meeting.stack.length) := by
  induction expands with
  | done => simp [meetings]
  | kept _ _ laterIh | skipped _ _ _ laterIh => exact laterIh
  | circular _ inside _ laterIh =>
    exact forall_mem_cons.mpr ⟨fun overflows => absurd inside overflows.apart, laterIh⟩
  | refused => exact forall_mem_singleton.mpr fun _ => rfl
  | failed asks _ _ _ laterIh =>
    exact forall_mem_cons.mpr ⟨fun overflows => absurd overflows asks.not_overflows, laterIh⟩
  | broken asks =>
    exact forall_mem_singleton.mpr fun overflows => absurd overflows asks.not_overflows
  | opened asks _ _ _ insideHypothesis laterIh =>
    refine forall_mem_cons.mpr ⟨fun overflows => absurd overflows asks.not_overflows, ?_⟩
    rw [filterMap_append, forall_mem_append]
    refine ⟨fun meeting mem overflows => ?_, laterIh⟩
    -- The file was expanded to its end.
    cases insideHypothesis meeting mem overflows
  | stopped asks _ _ insideHypothesis =>
    exact forall_mem_cons.mpr
      ⟨fun overflows => absurd overflows asks.not_overflows, insideHypothesis⟩

/-- Nothing but a meeting beyond the limit ends the expansion early, if files
fail in no other way than by being out of reach. -/
theorem Expands.overflow_of_ends
    (expands : Expands settings stack path branches macros sourceLines events ending)
    (reachable : ∀ path fault, settings.files path = .error fault → isRecoverable fault)
    {fault : Fault} (fails : ending = .error fault) :
    ∃ meeting ∈ meetings events, meeting.Overflows settings ∧
      fault = .includeTooDeep meeting.target meeting.stack.length := by
  induction expands with
  | done => cases fails
  | kept _ _ laterIh | skipped _ _ _ laterIh => exact laterIh fails
  | refused _ apart tooDeep =>
    cases fails
    exact ⟨_, mem_singleton_self _, ⟨apart, tooDeep⟩, rfl⟩
  | circular _ _ _ laterIh | failed _ _ _ _ laterIh =>
    obtain ⟨meeting, mem, facts⟩ := laterIh fails
    exact ⟨meeting, mem_cons_of_mem _ mem, facts⟩
  | broken _ failing stops =>
    rw [reachable _ _ failing] at stops
    cases stops
  | opened _ _ _ _ _ laterIh =>
    obtain ⟨meeting, mem, facts⟩ := laterIh fails
    refine ⟨meeting, mem_cons_of_mem _ ?_, facts⟩
    rw [filterMap_append]
    exact mem_append_right _ mem
  | stopped _ _ _ insideHypothesis =>
    obtain ⟨meeting, mem, facts⟩ := insideHypothesis fails
    exact ⟨meeting, mem_cons_of_mem _ mem, facts⟩

end Rules

/-- Every expansion ends, with a text or because it is nested too deep. Each
file is asked for at a stack of distinct files that does not hold it and is
within the limit. The expansion is nested too deep exactly if it meets a live
include of a file that is not on the stack at a stack beyond the limit, and
never if there are fewer files than the limit allows. -/
theorem expand_stack_bounded (settings : Settings) (source path : String) (predefined : List String)
    (reachable : ∀ path fault, settings.files path = .error fault → isRecoverable fault = true) :
    ∃ events ending,
      Expands settings [path] path [] predefined (lines source) events ending ∧
      let result := (runExpansion predefined (expand settings source path)).value
      result.2.fetched = (fetches events).map Meeting.target ∧
      (∀ meeting ∈ fetches events, meeting.stack.Nodup ∧ meeting.target ∉ meeting.stack ∧
        meeting.stack.length ≤ settings.maxDepth) ∧
      ((∃ text, result.1 = .ok text) ∨
        ∃ target depth, result.1 = .error (.includeTooDeep target depth)) ∧
      (∀ target depth, result.1 = .error (.includeTooDeep target depth) ↔
        ∃ meeting ∈ meetings events, meeting.target = target ∧ meeting.stack.length = depth ∧
          target ∉ meeting.stack ∧ settings.maxDepth < meeting.stack.length) ∧
      ∀ available : List String,
        (∀ path text, settings.files path = .ok text → path ∈ available) →
        available.length < settings.maxDepth → ∃ text, result.1 = .ok text := by
  obtain ⟨events, ending, expands, fetched, ends⟩ := expand_expands settings source path predefined
  have tooDeep : ∀ target depth,
      ending = .error (.includeTooDeep target depth) ↔
        ∃ meeting ∈ meetings events, meeting.target = target ∧ meeting.stack.length = depth ∧
          target ∉ meeting.stack ∧ settings.maxDepth < meeting.stack.length := by
    intro target depth
    constructor
    · intro fails
      obtain ⟨meeting, member, overflows, same⟩ := expands.overflow_of_ends reachable fails
      obtain ⟨rfl, rfl⟩ := Fault.includeTooDeep.inj same
      exact ⟨meeting, member, rfl, rfl, overflows.apart, overflows.tooDeep⟩
    · rintro ⟨meeting, member, rfl, rfl, apart, beyond⟩
      exact expands.ends_of_overflow meeting member ⟨apart, beyond⟩
  refine ⟨events, ending, expands, fetched, ?_, ?_, ?_, ?_⟩
  · intro meeting member
    have below := expands.stacks meeting (mem_meetings_of_mem_fetches member)
    exact ⟨below.distinct (by simp), expands.fetches_within meeting member⟩
  · rw [ends]
    cases ending with
    | ok macros => exact .inl ⟨_, rfl⟩
    | error fault =>
      obtain ⟨meeting, -, -, rfl⟩ := expands.overflow_of_ends reachable rfl
      exact .inr ⟨_, _, rfl⟩
  · intro target depth
    rw [ends, ← tooDeep]
    cases ending <;> simp [Except.map]
  · intro available covered few
    rw [ends]
    cases ending with
    | ok macros => exact ⟨_, rfl⟩
    | error fault =>
      obtain ⟨meeting, member, overflows, -⟩ := expands.overflow_of_ends reachable rfl
      have bound := (expands.stacks meeting member).length_le covered
      have beyond := overflows.tooDeep
      omega

def cyclicFiles : Files := fun path =>
  if path = "a.inc" then .ok "#include \"b.inc\"\nA"
  else if path = "b.inc" then .ok "B\n#include \"a.inc\""
  else .error .missingFile

theorem cyclicFiles_reachable (path : String) (fault : Fault)
    (fails : cyclicFiles path = .error fault) : isRecoverable fault := by
  unfold cyclicFiles at fails
  split at fails
  · cases fails
  · split at fails
    · cases fails
    · cases fails
      rfl

theorem expand_cyclicFiles :
    (runExpansion [] (expand ⟨cyclicFiles, 3⟩ "#include \"a.inc\"\nmain" "main")).value =
      (.ok "B\n// Circular include skipped: a.inc\nA\nmain",
        ⟨[], ["a.inc", "b.inc"], ["a.inc", "b.inc"]⟩) := by
  have mainLines : lines "#include \"a.inc\"\nmain" = ["#include \"a.inc\"", "main"] := by decide
  have firstLines : lines "#include \"b.inc\"\nA" = ["#include \"b.inc\"", "A"] := by decide
  have secondLines : lines "B\n#include \"a.inc\"" = ["B", "#include \"a.inc\""] := by decide
  have readsFirst : Line.ofText "#include \"a.inc\"" = .include "a.inc" := by decide +kernel
  have readsSecond : Line.ofText "#include \"b.inc\"" = .include "b.inc" := by decide +kernel
  have plain : ∀ line ∈ ["main", "A", "B"], Line.ofText line = .plain := by decide +kernel
  have fromMain : Path.resolve "main" "a.inc" = "a.inc" := by decide +kernel
  have fromFirst : Path.resolve "a.inc" "b.inc" = "b.inc" := by decide +kernel
  have fromSecond : Path.resolve "b.inc" "a.inc" = "a.inc" := by decide +kernel
  simp only [expand, mainLines, expandLines, readsFirst, fromMain]
  simp [fetch?, cyclicFiles, expandLines, firstLines, secondLines, readsSecond,
    plain, fromFirst]
  rfl

theorem expand_stack_bounded_cyclic :
    (runExpansion [] (expand ⟨cyclicFiles, 3⟩ "#include \"a.inc\"\nmain" "main")).value.1 =
        .ok "B\n// Circular include skipped: a.inc\nA\nmain" ∧
      ∃ events ending, Expands ⟨cyclicFiles, 3⟩ ["main"] "main" [] []
          (lines "#include \"a.inc\"\nmain") events ending ∧
        (fetches events).map Meeting.target = ["a.inc", "b.inc"] ∧
        ∀ meeting ∈ fetches events, meeting.stack.Nodup ∧ meeting.target ∉ meeting.stack ∧
          meeting.stack.length ≤ (3 : Int) := by
  obtain ⟨events, ending, expands, fetched, within, -⟩ :=
    expand_stack_bounded ⟨cyclicFiles, 3⟩ "#include \"a.inc\"\nmain" "main" []
      cyclicFiles_reachable
  grind [expand_cyclicFiles]

end WebShader.Include
