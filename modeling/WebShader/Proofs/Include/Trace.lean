import WebShader.Include.Expansion
import WebShader.Proofs.Run
import WebShader.Proofs.Text.Lines

/-!
Contract: what an expansion does, line by line, with the stack at every live
include.

Owns: the events of an expansion, the rules that give them, and the agreement of
the rules with the expansion that runs.

The expansion itself records the paths that it asks for, but not the stacks at
which it does. The events keep both, and the lines that are put out.
-/

namespace WebShader.Include

open List Text

/-- A live include: the files that are being expanded, and the file it names. -/
structure Meeting where
  stack : List String
  target : String
  deriving DecidableEq, Repr

/-- What happens at a line. An include that is opened goes on with the events of its file. -/
inductive Event where
  | kept (line : String)
  | skipped (target : String)
  | circular (meeting : Meeting)
  | refused (meeting : Meeting)
  | failed (meeting : Meeting)
  | opened (meeting : Meeting)
  deriving DecidableEq, Repr

namespace Event

def meeting? : Event → Option Meeting
  | .kept _ | .skipped _ => none
  | .circular meeting | .refused meeting | .failed meeting | .opened meeting => some meeting

def fetch? : Event → Option Meeting
  | .failed meeting | .opened meeting => some meeting
  | _ => none

def output : Event → List String
  | .kept line => [line]
  | .skipped target => [skippedComment target]
  | .circular meeting => [circularComment meeting.target]
  | .failed meeting => [failedComment meeting.target]
  | .refused _ | .opened _ => []

end Event

def meetings (events : List Event) : List Meeting :=
  events.filterMap Event.meeting?

def fetches (events : List Event) : List Meeting :=
  events.filterMap Event.fetch?

def outputs (events : List Event) : List String :=
  events.flatMap Event.output

/-! The rules. -/

def Line.branchesAfter (macros : List String) (branches : List Branch) : Line → List Branch
  | .group directive => directive.apply macros branches
  | _ => branches

def Line.macrosAfter (branches : List Branch) (macros : List String) (line : Line) : List String :=
  if isLive branches then (defineMacro line ⟨macros, [], []⟩).macros else macros

/-- A line of a file holds a live include of a target. -/
structure Meets (path : String) (branches : List Branch) (line target : String) : Prop where
  reads : ∃ wanted, Line.ofText line = .include wanted ∧ target = Path.resolve path wanted
  live : isLive branches = true

/-- A live include whose file may be asked for. -/
structure Asks (settings : Settings) (stack : List String) (path : String)
    (branches : List Branch) (line target : String) : Prop
    extends Meets path branches line target where
  apart : target ∉ stack
  within : ¬settings.maxDepth < stack.length

/-- The events of an expansion, and the macros at its end or the fault that ends it. -/
inductive Expands (settings : Settings) : List String → String → List Branch → List String →
    List String → List Event → Except Fault (List String) → Prop where
  | done {stack : List String} {path : String} {branches : List Branch} {macros : List String} :
      Expands settings stack path branches macros [] [] (.ok macros)
  | kept {stack rest macros : List String} {path line : String} {branches : List Branch}
      {events : List Event} {ending : Except Fault (List String)}
      (different : ∀ wanted, Line.ofText line ≠ .include wanted)
      (later : Expands settings stack path ((Line.ofText line).branchesAfter macros branches)
        ((Line.ofText line).macrosAfter branches macros) rest events ending) :
      Expands settings stack path branches macros (line :: rest) (.kept line :: events) ending
  | skipped {stack rest macros : List String} {path line wanted : String} {branches : List Branch}
      {events : List Event} {ending : Except Fault (List String)}
      (reads : Line.ofText line = .include wanted) (dead : isLive branches = false)
      (later : Expands settings stack path branches macros rest events ending) :
      Expands settings stack path branches macros (line :: rest)
        (.skipped (Path.resolve path wanted) :: events) ending
  | circular {stack rest macros : List String} {path line target : String}
      {branches : List Branch} {events : List Event} {ending : Except Fault (List String)}
      (meets : Meets path branches line target) (inside : target ∈ stack)
      (later : Expands settings stack path branches macros rest events ending) :
      Expands settings stack path branches macros (line :: rest)
        (.circular ⟨stack, target⟩ :: events) ending
  | refused {stack rest macros : List String} {path line target : String}
      {branches : List Branch} (meets : Meets path branches line target) (apart : target ∉ stack)
      (tooDeep : settings.maxDepth < stack.length) :
      Expands settings stack path branches macros (line :: rest) [.refused ⟨stack, target⟩]
        (.error (.includeTooDeep target stack.length))
  | failed {stack rest macros : List String} {path line target : String} {branches : List Branch}
      {fault : Fault} {events : List Event} {ending : Except Fault (List String)}
      (asks : Asks settings stack path branches line target)
      (fails : settings.files target = .error fault) (recovers : isRecoverable fault = true)
      (later : Expands settings stack path branches macros rest events ending) :
      Expands settings stack path branches macros (line :: rest)
        (.failed ⟨stack, target⟩ :: events) ending
  | broken {stack rest macros : List String} {path line target : String} {branches : List Branch}
      {fault : Fault} (asks : Asks settings stack path branches line target)
      (fails : settings.files target = .error fault) (stops : isRecoverable fault = false) :
      Expands settings stack path branches macros (line :: rest) [.failed ⟨stack, target⟩]
        (.error fault)
  | opened {stack rest macros between : List String} {path line target text : String}
      {branches : List Branch} {inner events : List Event} {ending : Except Fault (List String)}
      (asks : Asks settings stack path branches line target)
      (fetches : settings.files target = .ok text)
      (inside : Expands settings (stack ++ [target]) target [] macros (lines text) inner
        (.ok between))
      (later : Expands settings stack path branches between rest events ending) :
      Expands settings stack path branches macros (line :: rest)
        (.opened ⟨stack, target⟩ :: (inner ++ events)) ending
  | stopped {stack rest macros : List String} {path line target text : String}
      {branches : List Branch} {inner : List Event} {fault : Fault}
      (asks : Asks settings stack path branches line target)
      (fetches : settings.files target = .ok text)
      (inside : Expands settings (stack ++ [target]) target [] macros (lines text) inner
        (.error fault)) :
      Expands settings stack path branches macros (line :: rest)
        (.opened ⟨stack, target⟩ :: inner) (.error fault)

/-! The rules against the expansion that runs. -/

/-- Texts that join to the same source as lines. -/
structure SameText (texts outputs : List String) : Prop where
  joined : unlines texts = unlines outputs
  empty : texts = [] ↔ outputs = []

namespace SameText

variable {texts lines : List String}

theorem cons_line (same : SameText texts lines) (line : String) :
    SameText (line :: texts) (line :: lines) := by
  refine ⟨?_, by simp⟩
  by_cases absent : texts = []
  · rw [absent, same.empty.mp absent]
  · rw [unlines_cons _ absent, unlines_cons _ (fun empty => absent (same.empty.mpr empty)),
      same.joined]

theorem cons_text {inner pieces : List String} (inside : SameText inner pieces)
    (present : inner ≠ []) (same : SameText texts lines) :
    SameText (unlines inner :: texts) (pieces ++ lines) := by
  have nonempty : pieces ≠ [] := fun empty => present (inside.empty.mpr empty)
  refine ⟨?_, by simp [nonempty]⟩
  by_cases absent : texts = []
  · rw [absent, same.empty.mp absent, unlines_singleton, append_nil, inside.joined]
  · have further : lines ≠ [] := fun empty => absent (same.empty.mpr empty)
    rw [unlines_cons _ absent, unlines_append_of_ne_nil nonempty further, inside.joined, same.joined]

end SameText

/-- What the expansion that runs has in common with events: the paths that are
asked for, the lines that are put out, and the end. -/
structure Agrees (before : Progress) (events : List Event) (ending : Except Fault (List String))
    (result : Except Fault (List String) × Progress) : Prop where
  fetched : result.2.fetched = before.fetched ++ (fetches events).map Meeting.target
  ends : match ending with
    | .ok macros => result.2.macros = macros ∧
        ∃ texts, result.1 = .ok texts ∧ SameText texts (outputs events)
    | .error fault => result.1 = .error fault

/-- The events of a line in front of those of the lines after it. -/
theorem Agrees.push {before between : Progress} {events : List Event}
    {ending : Except Fault (List String)} {rest : Expanding (List String)}
    (later : Agrees between events ending (outcome rest between)) (front : List Event)
    (text : String)
    (fetched : between.fetched = before.fetched ++ (fetches front).map Meeting.target)
    (same : ∀ {texts lines}, SameText texts lines →
      SameText (text :: texts) (outputs front ++ lines)) :
    Agrees before (front ++ events) ending (outcome (do return text :: (← rest)) between) := by
  obtain ⟨laterFetched, laterEnds⟩ := later
  cases shape : outcome rest between with
  | mk result after =>
    rw [shape] at laterFetched laterEnds
    have listed : after.fetched =
        before.fetched ++ (fetches (front ++ events)).map Meeting.target := by
      rw [laterFetched, fetched, fetches, fetches, fetches, filterMap_append,
        map_append, append_assoc]
    cases ending with
    | error fault =>
      obtain rfl : result = .error fault := laterEnds
      rw [outcome_bind_error shape]
      exact ⟨listed, rfl⟩
    | ok macros =>
      obtain ⟨macrosAfter, texts, rfl, together⟩ := laterEnds
      rw [outcome_bind_ok shape]
      refine ⟨listed, macrosAfter, text :: texts, rfl, ?_⟩
      rw [outputs, flatMap_append]
      exact same together

/-- A file has at least one line, so it puts out at least one. -/
theorem Expands.outputs_ne_nil {settings : Settings} {stack macros sourceLines final : List String}
    {path : String} {branches : List Branch} {events : List Event}
    (expands : Expands settings stack path branches macros sourceLines events (.ok final))
    (present : sourceLines ≠ []) : outputs events ≠ [] := by
  generalize ended : Except.ok final = ending at expands
  induction expands generalizing final with
  | done => exact absurd rfl present
  | opened asks fetches inside later insideHypothesis laterIh =>
    have inner := insideHypothesis (lines_ne_nil _) rfl
    simp only [outputs] at inner ⊢
    simp [inner]
  | refused | broken | stopped => cases ended
  | _ => simp [outputs, Event.output]

theorem defineMacro_eq (line : Line) (progress : Progress) :
    defineMacro line progress =
      { progress with macros := (defineMacro line ⟨progress.macros, [], []⟩).macros } := by
  cases line with
  | define name =>
    simp only [defineMacro]
    split <;> rfl
  | _ => rfl

theorem Line.macrosAfter_group (branches : List Branch) (macros : List String)
    (directive : GroupLine) : (Line.group directive).macrosAfter branches macros = macros :=
  ite_self _

theorem Line.branchesAfter_of_not_group {line : Line} (ne : ∀ directive, line ≠ .group directive)
    (macros : List String) (branches : List Branch) : line.branchesAfter macros branches = branches := by
  cases line with
  | group directive => exact absurd rfl (ne directive)
  | _ => rfl

/-! Asking for a file. -/

section Fetching

variable {files : Files} {target text : String} {fault : Fault} (progress : Progress)

theorem outcome_fetch?_ok (fetches : files target = .ok text) :
    outcome (fetch? files target) progress = (.ok (some text),
      { progress with
        included := progress.included ++ [target], fetched := progress.fetched ++ [target] }) := by
  rw [fetch?, fetches]
  rfl

theorem outcome_fetch?_failed (fails : files target = .error fault)
    (recovers : isRecoverable fault) :
    outcome (fetch? files target) progress =
      (.ok none, { progress with fetched := progress.fetched ++ [target] }) := by
  rw [fetch?, fails]
  simp only [recovers]
  rfl

theorem outcome_fetch?_broken (fails : files target = .error fault)
    (stops : isRecoverable fault = false) :
    outcome (fetch? files target) progress =
      (.error fault, { progress with fetched := progress.fetched ++ [target] }) := by
  rw [fetch?, fails]
  simp only [stops]
  rfl

end Fetching

/-! The run. -/

/-- The expansion of some lines follows the rules, from wherever it starts. -/
def Follows (settings : Settings) (stack : List String) (path : String) (branches : List Branch)
    (sourceLines : List String) : Prop :=
  ∀ progress : Progress, ∃ events ending,
    Expands settings stack path branches progress.macros sourceLines events ending ∧
      Agrees progress events ending
        (outcome (expandLines settings stack path branches sourceLines) progress)

section Follows

variable {settings : Settings} {stack rest : List String} {path line target : String}
  {branches : List Branch}

/-- What an include that may be asked for does, in front of the lines after it. -/
theorem Asks.follows (asks : Asks settings stack path branches line target)
    (inside : ∀ text, Follows settings (stack ++ [target]) target [] (lines text))
    (after : Follows settings stack path branches rest) (progress : Progress) :
    ∃ events ending,
      Expands settings stack path branches progress.macros (line :: rest) events ending ∧
        Agrees progress events ending (outcome ((fetch? settings.files target >>= fun found =>
            match found with
            | none => pure (failedComment target)
            | some text =>
              unlines <$> expandLines settings (stack ++ [target]) target [] (lines text)) >>=
            fun text => do return text :: (← expandLines settings stack path branches rest))
          progress) := by
  rw [bind_assoc]
  cases found : settings.files target with
  | error fault =>
    cases recovers : isRecoverable fault with
    | false =>
      refine ⟨_, _, .broken asks found recovers, ?_⟩
      rw [outcome_bind_error (outcome_fetch?_broken progress found recovers)]
      exact ⟨by simp [fetches, Event.fetch?], rfl⟩
    | true =>
      obtain ⟨events, ending, later, agrees⟩ :=
        after { progress with fetched := progress.fetched ++ [target] }
      refine ⟨_, ending, .failed asks found recovers later, ?_⟩
      rw [outcome_bind_ok (outcome_fetch?_failed progress found recovers)]
      exact agrees.push [.failed ⟨stack, target⟩] (failedComment target)
        (by simp [fetches, Event.fetch?]) fun same => same.cons_line _
  | ok text =>
    rw [outcome_bind_ok (outcome_fetch?_ok progress found)]
    dsimp only
    rw [map_eq_pure_bind, bind_assoc]
    obtain ⟨inner, innerEnding, insideExpands, insideFetched, insideEnds⟩ := inside text
      ⟨progress.macros, progress.included ++ [target], progress.fetched ++ [target]⟩
    cases shape : outcome (expandLines settings (stack ++ [target]) target [] (lines text))
        ⟨progress.macros, progress.included ++ [target], progress.fetched ++ [target]⟩ with
    | mk result between =>
      rw [shape] at insideFetched insideEnds
      have fetched : between.fetched = progress.fetched ++
          (fetches (.opened ⟨stack, target⟩ :: inner)).map Meeting.target := by
        rw [insideFetched]
        simp [fetches, Event.fetch?]
      cases innerEnding with
      | error fault =>
        obtain rfl : result = .error fault := insideEnds
        refine ⟨_, _, .stopped asks found insideExpands, ?_⟩
        rw [outcome_bind_error shape]
        exact ⟨fetched, rfl⟩
      | ok macros =>
        obtain ⟨rfl, texts, rfl, same⟩ := insideEnds
        obtain ⟨events, ending, later, agrees⟩ := after between
        refine ⟨_, ending, .opened asks found insideExpands later, ?_⟩
        rw [outcome_bind_ok shape]
        refine agrees.push (.opened ⟨stack, target⟩ :: inner) (unlines texts) fetched
          fun others => same.cons_text (fun empty => ?_) others
        exact insideExpands.outputs_ne_nil (lines_ne_nil text) (same.empty.mp empty)

theorem Meets.follows (meets : Meets path branches line target)
    (inside : ∀ text, ¬settings.maxDepth < stack.length →
      Follows settings (stack ++ [target]) target [] (lines text))
    (after : Follows settings stack path branches rest) :
    Follows settings stack path branches (line :: rest) := by
  intro progress
  obtain ⟨wanted, reads, rfl⟩ := meets.reads
  rw [expandLines, reads]
  dsimp only
  rw [if_neg (by simp [meets.live])]
  by_cases onStack : Path.resolve path wanted ∈ stack
  · obtain ⟨events, ending, later, agrees⟩ := after progress
    refine ⟨_, ending, .circular meets onStack later, ?_⟩
    rw [if_pos (by simpa using onStack)]
    exact agrees.push [.circular ⟨stack, _⟩] (circularComment _)
      (by simp [fetches, Event.fetch?]) fun same => same.cons_line _
  · rw [if_neg (by simpa using onStack)]
    by_cases tooDeep : settings.maxDepth < stack.length
    · refine ⟨_, _, .refused meets onStack tooDeep, ?_⟩
      rw [dif_pos tooDeep]
      exact ⟨(append_nil _).symm, rfl⟩
    · rw [dif_neg tooDeep]
      exact Asks.follows ⟨meets, onStack, tooDeep⟩ (fun text => inside text tooDeep) after progress

/-- A line that is no include is kept, with its effect on groups and macros. -/
theorem outcome_expandLines_kept (ne : ∀ wanted, Line.ofText line ≠ .include wanted)
    (progress : Progress) :
    outcome (expandLines settings stack path branches (line :: rest)) progress =
      outcome (do return line :: (← expandLines settings stack path
          ((Line.ofText line).branchesAfter progress.macros branches) rest))
        { progress with macros := (Line.ofText line).macrosAfter branches progress.macros } := by
  rw [expandLines]
  split
  next directive reads =>
    rw [reads, Line.macrosAfter_group]
    rfl
  next wanted reads => exact absurd reads (ne wanted)
  next notGroup notInclude =>
    rw [Line.branchesAfter_of_not_group notGroup, Line.macrosAfter]
    cases live : isLive branches with
    | false => rfl
    | true =>
      rw [if_pos rfl, if_pos rfl, ← defineMacro_eq]
      rfl

theorem follows_kept (ne : ∀ wanted, Line.ofText line ≠ .include wanted)
    (after : ∀ macros, Follows settings stack path
      ((Line.ofText line).branchesAfter macros branches) rest) :
    Follows settings stack path branches (line :: rest) := by
  intro progress
  obtain ⟨events, ending, later, agrees⟩ := after progress.macros
    { progress with macros := (Line.ofText line).macrosAfter branches progress.macros }
  refine ⟨.kept line :: events, ending, .kept ne later, ?_⟩
  rw [outcome_expandLines_kept ne]
  exact agrees.push [.kept line] line (append_nil _).symm fun same => same.cons_line line

theorem follows_skipped {wanted : String} (reads : Line.ofText line = .include wanted)
    (dead : isLive branches = false) (after : Follows settings stack path branches rest) :
    Follows settings stack path branches (line :: rest) := by
  intro progress
  obtain ⟨events, ending, later, agrees⟩ := after progress
  refine ⟨_, ending, .skipped reads dead later, ?_⟩
  rw [expandLines, reads]
  dsimp only
  rw [if_pos (by simp [dead])]
  exact agrees.push [.skipped _] (skippedComment _) (append_nil _).symm fun same => same.cons_line _

end Follows

/-- The expansion that runs follows the rules. -/
theorem expandLines_follows (settings : Settings) (stack : List String) (path : String)
    (branches : List Branch) (sourceLines : List String) :
    Follows settings stack path branches sourceLines := by
  induction stack, path, branches, sourceLines using expandLines.induct settings with
  | case1 stack path branches =>
    intro progress
    refine ⟨[], .ok progress.macros, .done, ?_⟩
    rw [expandLines, outcome_pure]
    exact ⟨by simp [fetches], rfl, [], rfl, rfl, by simp [outputs]⟩
  | case2 stack path branches line rest directive reads laterIh =>
    refine follows_kept (by simp [reads]) fun macros => ?_
    rw [reads]
    exact laterIh ⟨macros, [], []⟩
  | case3 stack path branches line rest wanted reads target insideHypothesis laterIh =>
    cases live : isLive branches with
    | false => exact follows_skipped reads live laterIh
    | true =>
      exact Meets.follows ⟨⟨wanted, reads, rfl⟩, live⟩
        (fun text within => insideHypothesis within text) laterIh
  | case4 stack path branches line rest _ notGroup notInclude laterIh
  | case5 stack path branches line rest _ notGroup notInclude laterIh =>
    grind [follows_kept, Line.branchesAfter_of_not_group]

/-- The events of a whole expansion, and what it comes to. -/
theorem expand_expands (settings : Settings) (source path : String) (predefined : List String) :
    ∃ events ending, Expands settings [path] path [] predefined (lines source) events ending ∧
      (runExpansion predefined (expand settings source path)).value.2.fetched =
        (fetches events).map Meeting.target ∧
      (runExpansion predefined (expand settings source path)).value.1 =
        ending.map fun _ => unlines (outputs events) := by
  obtain ⟨events, ending, expands, fetched, ends⟩ :=
    expandLines_follows settings [path] path [] (lines source) ⟨predefined, [], []⟩
  refine ⟨events, ending, expands, ?_⟩
  have unfolds : (runExpansion predefined (expand settings source path)).value =
      outcome (expandLines settings [path] path [] (lines source) >>= fun texts =>
        pure (unlines texts)) ⟨predefined, [], []⟩ := by
    rfl
  rw [unfolds]
  cases shape : outcome (expandLines settings [path] path [] (lines source)) ⟨predefined, [], []⟩ with
  | mk result after =>
    rw [shape] at fetched ends
    cases ending with
    | error fault =>
      obtain rfl : result = .error fault := ends
      rw [outcome_bind_error shape]
      exact ⟨fetched, rfl⟩
    | ok macros =>
      obtain ⟨-, texts, rfl, same⟩ := ends
      rw [outcome_bind_ok shape, same.joined]
      exact ⟨fetched, rfl⟩

end WebShader.Include
