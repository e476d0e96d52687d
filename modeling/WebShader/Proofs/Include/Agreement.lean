import WebShader.Proofs.Include.Script
import WebShader.Proofs.Include.Trace
import WebShader.Proofs.Path

/-!
Contract: the expansion of includes and conditional compilation agree on what is live.

Owns: where the characters of a resolved path come from, the state that
conditional compilation is in at every event of an expansion, the relation
between the groups of the two passes, and that it holds along every expansion of
files that test names only.

Each file has groups of its own in the expansion. In the text that is put out
they lie inside the groups of the files around it, which are all active where
the file is opened.
-/

namespace WebShader.Path

open List Text Conditional State

variable {path wanted : String} {c : Char}

theorem mem_normalize (mem : c ∈ (normalize path).toList) : c ∈ ['/', '.'] ∨ c ∈ path.toList := by
  simp only [normalize] at mem
  split at mem
  · exact .inl (by simp_all)
  · rw [String.toList_append, mem_append, String.toList_ofList] at mem
    rcases mem with slash | inside
    · grind
    · rcases mem_intercalate inside with slash | ⟨part, listed, within⟩
      · exact .inl (by simp_all)
      · rcases mem_foldl_addComponent listed with none | component
        · cases none
        · obtain ⟨piece, split, rfl⟩ := mem_map.mp component
          rw [String.toList_ofList] at within
          exact .inr (subset_of_mem_splitAtEach split within)

theorem mem_join {base : String} (mem : c ∈ (join base path).toList) :
    c ∈ ['/', '.'] ∨ c ∈ base.toList ∨ c ∈ path.toList := by
  rw [join] at mem
  split at mem
  · exact .inr (.inr mem)
  grind [String.toList_append]

/-- The path of an include takes its characters from the directory of the file and from its line. -/
theorem mem_resolve (mem : c ∈ (resolve path wanted).toList) :
    c ∈ ['/', '.'] ∨ c ∈ (directory path).toList ∨ c ∈ wanted.toList := by
  rw [resolve] at mem
  split at mem
  · grind [mem_normalize]
  grind [mem_normalize, mem_join]

theorem mem_directory (mem : c ∈ (directory path).toList) : c ∈ path.toList := by
  have trims : ∀ (inClass : Char → Bool) (text : List Char), trimEndWhere inClass text ⊆ text := by
    intro inClass text d inside
    rw [trimEndWhere, mem_reverse] at inside
    exact mem_reverse.mp ((dropWhile_suffix _).subset inside)
  rw [directory, String.toList_ofList] at mem
  split at mem
  · exact trims _ _ mem
  · exact trims _ _ (trims _ _ mem)

end WebShader.Path

namespace WebShader.Include

open List Text Conditional State
open Conditional (Group MacroTable State)

variable {command : Command} {event : Event} {divided : List Bool} {branches : List Branch}
  {events : List Event} {groups outer : List Group} {script : List ScriptLine} {final : List String}
  {state : State} {line name target wanted : String} {comment : String → String}

/-! Macros of both passes. -/

theorem defines_iff (table : MacroTable) (name : String) :
    table.defines name ↔ ∃ defn ∈ table.macros, defn.name = name := by
  simp [MacroTable.defines, MacroTable.find?]

theorem defines_erase (table : MacroTable) (erased name : String) :
    (table.erase erased).defines name ↔ name ≠ erased ∧ table.defines name := by
  simp only [defines_iff, MacroTable.erase]
  grind

theorem defines_insert (table : MacroTable) (defn : Conditional.Macro) (name : String) :
    (table.insert defn).defines name ↔ name = defn.name ∨ table.defines name := by
  have parts : (table.insert defn).defines name ↔
      (table.erase defn.name).defines name ∨ defn.name = name := by
    simp only [defines_iff, MacroTable.insert]
    constructor
    · simp
    · simp
  rw [parts, defines_erase]
  grind

def SameMacros (macros : List String) (table : MacroTable) : Prop :=
  ∀ name, name ∈ macros ↔ table.defines name = true

namespace SameMacros

open Conditional State

theorem ofPairs (predefined : List (String × String)) :
    SameMacros (predefined.map Prod.fst) (MacroTable.ofPairs predefined) := by
  have fold : ∀ (pairs : List (String × String)) (table : MacroTable) (name : String),
      (pairs.foldl (fun table pair => table.insert ⟨pair.1, pair.2, none⟩) table).defines name =
          true ↔ name ∈ pairs.map Prod.fst ∨ table.defines name := by
    intro pairs
    induction pairs with
    | nil => simp
    | cons pair others ih =>
      intro table name
      rw [foldl_cons, ih, defines_insert, map_cons]
      grind
  intro name
  rw [MacroTable.ofPairs, fold]
  simp [defines_iff, MacroTable.empty]

variable {macros : List String} {table : MacroTable} (same : SameMacros macros table)

include same

theorem contains_eq (name : String) : macros.contains name = table.defines name := by
  rw [Bool.eq_iff_iff, contains_iff_mem]
  exact same name

theorem define (defn : Conditional.Macro) :
    SameMacros (if macros.contains defn.name then macros else defn.name :: macros)
      (table.insert defn) := by
  intro name
  rw [defines_insert, ← same name]
  grind

theorem undefine (erased : String) :
    SameMacros (macros.filter (· != erased)) (table.erase erased) := by
  intro name
  rw [defines_erase, ← same name, mem_filter, bne_iff_ne, and_comm]

end SameMacros

/-! Groups of both passes. -/

/-- The groups of a file inside outer ones. For each group it is known whether
it has been divided: before, the pass over the text knows whether the tested
branch was chosen. -/
inductive Matches (outer : List Group) : List Bool → List Branch → List Group → Prop where
  | nil : Matches outer [] [] outer
  | cons {divided : List Bool} {branches : List Branch} {groups : List Group} {isDivided : Bool}
      {branch : Branch} {group : Group} (inner : Matches outer divided branches groups)
      (parent : group.parentActive = isLive branches)
      (active : group.active = (isLive branches && branch.isLive))
      (taken : isDivided = false → group.taken = branch.wasChosen) :
      Matches outer (isDivided :: divided) (branch :: branches) (group :: groups)

/-- Inside active groups, what is live is what is active. -/
theorem Matches.all_active (matching : Matches outer divided branches groups)
    (outside : outer.all Group.active) : groups.all Group.active = isLive branches := by
  induction matching with
  | nil => rw [outside]; rfl
  | @cons _ branches _ _ branch group _ _ active _ ih =>
    rw [all_cons, ih, active, isLive, isLive]
    grind

/-- Where no group of the file is open, the groups are the outer ones. -/
theorem Matches.eq_outer (matching : Matches outer [] branches groups) :
    branches = [] ∧ groups = outer := by
  cases matching
  exact ⟨rfl, rfl⟩

/-- A point in a file, as both passes see it. -/
structure Tracks (outer : List Group) (divided : List Bool) (branches : List Branch)
    (macros : List String) (state : State) : Prop where
  groups : Matches outer divided branches state.groups
  macros : SameMacros macros state.table

section Lines

variable {outer : List Group} {divided : List Bool} {branches : List Branch}
  {macros : List String} {state : State} {commands : List Command}

theorem Tracks.isActive (tracks : Tracks outer divided branches macros state)
    (outside : outer.all Group.active) : state.isActive = isLive branches :=
  tracks.groups.all_active outside

/-- A line that is no directive known to conditional compilation changes nothing there. -/
theorem step_other (other : ∀ directive, Conditional.Directive.ofLine? line = some directive →
      directive.keyword ∉ conditionalKeywords ∧ directive.keyword ∉ ["define", "undef"])
    (state : State) : (state.step line).value = (state.isActive, state) := by
  rw [step]
  split
  · rfl
  next directive reads =>
    obtain ⟨unconditional, plain⟩ := other directive reads
    rw [conditional?_eq_none unconditional]
    cases active : state.isActive with
    | false => rfl
    | true =>
      rw [apply]
      split <;> simp_all

theorem step_text (written : Command.text.Written line.toList) (state : State) :
    (state.step line).value = (state.isActive, state) := by
  apply step_other
  intro directive reads
  have outside := ofLine?_text written reads
  simp only [reserved, conditionalKeywords, mem_cons, not_or] at outside ⊢
  simp [outside]

theorem step_including (written : Command.including.Written line.toList) (state : State) :
    (state.step line).value = (state.isActive, state) := by
  obtain ⟨arg, gives⟩ := written
  apply step_other
  intro directive reads
  rw [gives.ofLine? (by decide)] at reads
  obtain rfl := Option.some.inj reads
  simp [conditionalKeywords]

/-- What stands in the place of an include that is not expanded. -/
def comments : List (String → String) :=
  [skippedComment, circularComment, failedComment]

theorem exists_marker (listed : comment ∈ comments) :
    ∃ marker : String, comment = (marker ++ ·) ∧ '\n' ∉ marker.toList ∧
      marker.toList.head? = some '/' := by
  simp only [comments, mem_cons, not_mem_nil, or_false] at listed
  rcases listed with rfl | rfl | rfl <;> exact ⟨_, rfl, by decide, by decide⟩

theorem comment_toList (listed : comment ∈ comments) (target : String) :
    ∃ rest, (comment target).toList.dropWhile isBlank = '/' :: rest := by
  obtain ⟨marker, rfl, -, opens⟩ := exists_marker listed
  obtain ⟨rest, spelled⟩ := head?_eq_some_iff.mp opens
  exact ⟨rest ++ target.toList, by rw [String.toList_append, spelled]; rfl⟩

theorem step_comment (listed : comment ∈ comments) (target : String) (state : State) :
    (state.step (comment target)).value = (state.isActive, state) := by
  obtain ⟨rest, front⟩ := comment_toList listed target
  simp_all [Conditional.Directive.ofLine?, step]

theorem step_test {wanted : Bool} (written : (Command.test wanted name).Written line.toList)
    (state : State) : (state.step line).value = (false, state.openTest wanted name) := by
  obtain ⟨arg, rest, gives, names, ends⟩ := written
  have reads := gives.ofLine? (by cases wanted <;> decide)
  have effect : state.conditional?
      ⟨testKeyword wanted, trim (String.ofList (withoutComments arg))⟩ =
        some (pure (state.openTest wanted name)) := by
    rw [← names.firstWord ends]
    cases wanted <;> rfl
  rw [step_of_conditional reads effect]
  rfl

theorem step_otherwise (written : Command.otherwise.Written line.toList) (state : State) :
    (state.step line).value = (false, state.otherwise.value) := by
  obtain ⟨arg, gives⟩ := written
  rw [step_of_conditional (gives.ofLine? (by decide)) rfl]
  rfl

theorem step_endGroup (written : Command.endGroup.Written line.toList) (state : State) :
    (state.step line).value = (false, state.closeGroup.value) := by
  obtain ⟨arg, gives⟩ := written
  rw [step_of_conditional (gives.ofLine? (by decide)) rfl]
  rfl

theorem Gives.step_apply {keyword : String} {arg : List Char}
    (gives : Gives line.toList keyword arg) (known : keyword ∈ ["define", "undef"])
    (state : State) :
    (state.step line).value.2 = if state.isActive then
      (state.apply ⟨keyword, trim (String.ofList (withoutComments arg))⟩).value
    else state := by
  have listed : keyword ∈ reserved ∧ keyword ∉ conditionalKeywords := by
    simp only [mem_cons, not_mem_nil, or_false] at known
    rcases known with rfl | rfl <;> decide
  rw [step, gives.ofLine? listed.1]
  dsimp only
  rw [conditional?_eq_none listed.2]
  cases state.isActive <;> rfl

theorem step_define (written : (Command.define name).Written line.toList) (state : State) :
    ∃ defn : Conditional.Macro, defn.name = name ∧ (state.step line).value.2 =
        if state.isActive then { state with table := state.table.insert defn } else state := by
  obtain ⟨arg, rest, gives, names⟩ := written
  obtain ⟨defn, reads, named⟩ := names.ofArgument?
  refine ⟨defn, named, ?_⟩
  rw [gives.step_apply (by decide)]
  simp only [apply, define, reads]
  rfl

theorem step_undefine (written : (Command.undefine name).Written line.toList) (state : State) :
    (state.step line).value.2 =
      if state.isActive then { state with table := state.table.erase name } else state := by
  obtain ⟨arg, rest, gives, names, ends⟩ := written
  rw [gives.step_apply (by decide)]
  simp only [apply, undefine, names.firstWord ends]
  rfl

/-! One line. -/

/-- Both passes go on in step after a line that is no include. -/
theorem Tracks.kept (tracks : Tracks outer divided branches macros state)
    (outside : outer.all Group.active) (written : command.Written line.toList)
    (ne : ∀ wanted, Line.ofText line ≠ .include wanted)
    (nested : nests divided (command :: commands)) :
    ∃ after, nests after commands ∧
      Tracks outer after ((Line.ofText line).branchesAfter macros branches)
        ((Line.ofText line).macrosAfter branches macros) (state.step line).value.2 := by
  have active := tracks.isActive outside
  obtain ⟨matching, same⟩ := tracks
  cases command with
  | test wanted name =>
    refine ⟨false :: divided, nested, ?_⟩
    rw [ofText_test written, Line.macrosAfter_group, step_test written]
    refine ⟨.cons matching active ?_ fun _ => ?_, same⟩
    · rw [active, same.contains_eq]
    · rw [same.contains_eq]
  | otherwise =>
    rw [ofText_otherwise written, Line.macrosAfter_group, step_otherwise written]
    obtain ⟨table, groups⟩ := state
    cases matching with
    | nil => cases nested
    | @cons divided branches groups isDivided branch group inner parent _ taken =>
      cases isDivided with
      | true => cases nested
      | false =>
        refine ⟨true :: divided, nested, .cons inner parent ?_ (by simp), same⟩
        rw [parent, taken rfl]
  | endGroup =>
    rw [ofText_endGroup written, Line.macrosAfter_group, step_endGroup written]
    obtain ⟨table, groups⟩ := state
    cases matching with
    | nil => cases nested
    | @cons divided _ _ _ _ _ inner _ _ _ => exact ⟨divided, nested, inner, same⟩
  | define name =>
    obtain ⟨defn, rfl, after⟩ := step_define written state
    refine ⟨divided, nested, ?_⟩
    rw [ofText_define written, after, active, Line.macrosAfter]
    cases isLive branches with
    | false => exact ⟨matching, same⟩
    | true =>
      refine ⟨matching, ?_⟩
      have defined := same.define defn
      simp only [defineMacro]
      split at defined <;> simp_all
  | undefine name =>
    refine ⟨divided, nested, ?_⟩
    rw [ofText_undefine written, step_undefine written, active, Line.macrosAfter]
    cases isLive branches with
    | false => exact ⟨matching, same⟩
    | true => exact ⟨matching, same.undefine name⟩
  | including =>
    have plain : Line.ofText line = .plain := by
      rcases ofText_including written with ⟨path, reads, -⟩ | plain
      · exact absurd reads (ne path)
      · exact plain
    refine ⟨divided, nested, ?_⟩
    rw [plain, step_including written, Line.macrosAfter]
    exact ⟨matching, by simpa [defineMacro] using same⟩
  | text =>
    refine ⟨divided, nested, ?_⟩
    rw [ofText_text written, step_text written, Line.macrosAfter]
    exact ⟨matching, by simpa [defineMacro] using same⟩

end Lines

/-! Events. -/

def stateAfter (state : State) (events : List Event) : State :=
  (state.run (outputs events)).value.2

/-- Every event with the state that conditional compilation is in when it comes to its line. -/
def statesAt (state : State) : List Event → List (Event × State)
  | [] => []
  | event :: rest => (event, state) :: statesAt (stateAfter state [event]) rest

def survivors (state : State) (events : List Event) : List Event :=
  ((statesAt state events).filter fun entry =>
    (entry.2.run entry.1.output).value.1 == entry.1.output).map Prod.fst

theorem stateAfter_append (state : State) (first second : List Event) :
    stateAfter state (first ++ second) = stateAfter (stateAfter state first) second := by
  rw [stateAfter, outputs, flatMap_append, run_append]
  rfl

theorem statesAt_append (state : State) (first second : List Event) :
    statesAt state (first ++ second) =
      statesAt state first ++ statesAt (stateAfter state first) second := by
  induction first generalizing state with
  | nil => rfl
  | cons event rest ih =>
    rw [cons_append, statesAt, ih, ← stateAfter_append]
    rfl

theorem stateAfter_singleton (state : State) (event : Event) :
    stateAfter state [event] = (state.run event.output).value.2 := by
  rw [stateAfter, outputs, flatMap_singleton]

theorem run_line (state : State) (line : String) :
    (state.run [line]).value =
      (if (state.step line).value.1 then [line] else [], (state.step line).value.2) := rfl

/-- An event has one line at most. -/
theorem run_output (state : State) (event : Event) :
    (state.run event.output).value.1 = event.output ∨ (state.run event.output).value.1 = [] := by
  cases event with
  | kept | skipped | circular | failed => simp [Event.output, run_line]
  | refused | opened => exact .inl rfl

theorem survivors_cons (state : State) (event : Event) (rest : List Event) :
    survivors state (event :: rest) =
      (if (state.run event.output).value.1 == event.output then [event] else []) ++
        survivors (stateAfter state [event]) rest := by
  rw [survivors, statesAt, filter_cons]
  split <;> rfl

theorem outputs_survivors (state : State) (events : List Event) :
    (state.run (outputs events)).value.1 = outputs (survivors state events) := by
  induction events generalizing state with
  | nil => rfl
  | cons event rest ih =>
    have parts : (state.run (outputs (event :: rest))).value.1 =
        (state.run event.output).value.1 ++ outputs (survivors (stateAfter state [event]) rest) := by
      rw [← ih, outputs, flatMap_cons, run_append, stateAfter_singleton]
      rfl
    have here : (state.run event.output).value.1 = outputs
        (if (state.run event.output).value.1 == event.output then [event] else []) := by
      split
      next same => rw [beq_iff_eq.mp same, outputs, flatMap_singleton]
      next ne =>
        rcases run_output state event with same | none
        · exact absurd (beq_iff_eq.mpr same) ne
        · exact none
    rw [parts, survivors_cons, outputs, outputs, flatMap_append]
    congr 1

/-- An include is skipped in inactive code, and is met in active code. -/
structure Accords (event : Event) (state : State) : Prop where
  skipped : ∀ target, event = .skipped target → state.isActive = false
  met : ∀ meeting, event.meeting? = some meeting → state.isActive = true

/-- Events with which conditional compilation keeps in step, up to the end of a file. -/
structure InStep (outer : List Group) (final : List String) (state : State)
    (events : List Event) : Prop where
  accords : ∀ entry ∈ statesAt state events, Accords entry.1 entry.2
  ends : Tracks outer [] [] final (stateAfter state events)

theorem InStep.append {inner : List Group} {between : List String} {front : List Event}
    (first : InStep inner between state front)
    (later : InStep outer final (stateAfter state front) events) :
    InStep outer final state (front ++ events) := by
  refine ⟨?_, by rw [stateAfter_append]; exact later.ends⟩
  intro entry mem
  rw [statesAt_append] at mem
  rcases mem_append.mp mem with early | late
  · exact first.accords entry early
  · exact later.accords entry late

theorem InStep.cons {state : State} (here : Accords event state)
    (later : InStep outer final (stateAfter state [event]) events) :
    InStep outer final state (event :: events) := by
  refine ⟨?_, by rw [← singleton_append, stateAfter_append]; exact later.ends⟩
  intro entry mem
  rcases mem_cons.mp mem with rfl | late
  · exact here
  · exact later.accords entry late

/-- Comments are no directives, so they leave the state as it is. -/
theorem stateAfter_marker (marker : ∀ line, event ≠ .kept line) (state : State) :
    stateAfter state [event] = state := by
  cases event with
  | kept line => exact absurd rfl (marker line)
  | skipped target =>
    exact congrArg Prod.snd (@step_comment skippedComment (by simp [comments]) target state)
  | circular meeting =>
    exact congrArg Prod.snd (@step_comment circularComment (by simp [comments]) _ state)
  | failed meeting =>
    exact congrArg Prod.snd (@step_comment failedComment (by simp [comments]) _ state)
  | refused | opened => rfl

theorem InStep.marker (marker : ∀ line, event ≠ .kept line) (here : Accords event state)
    (later : InStep outer final state events) : InStep outer final state (event :: events) :=
  .cons here ((stateAfter_marker marker state).symm ▸ later)

theorem accords_skipped (target : String) (inactive : state.isActive = false) :
    Accords (.skipped target) state :=
  ⟨fun _ _ => inactive, by simp [Event.meeting?]⟩

theorem accords_met (met : event.meeting?.isSome) (active : state.isActive) :
    Accords event state := by
  refine ⟨?_, fun _ _ => active⟩
  rintro target rfl
  cases met

section Runs

variable {settings : Settings} {stack macros : List String} {path : String}
  {branches : List Branch} {events : List Event}

/-- Files that consist of lines which test names only. -/
def AllScripts (settings : Settings) : Prop :=
  ∀ target text, settings.files target = .ok text → ∃ script : Script, script.source = text

theorem Command.Written.eq_including (written : command.Written line.toList)
    (reads : Line.ofText line = .include wanted) : command = .including := by
  cases command with
  | including => rfl
  | test => rw [ofText_test written] at reads; cases reads
  | otherwise => rw [ofText_otherwise written] at reads; cases reads
  | endGroup => rw [ofText_endGroup written] at reads; cases reads
  | define => rw [ofText_define written] at reads; cases reads
  | undefine => rw [ofText_undefine written] at reads; cases reads
  | text => rw [ofText_text written] at reads; cases reads

/-- An include opens, divides and closes no group. -/
theorem nests_of_include {line : ScriptLine} {commands : List Command}
    (reads : Line.ofText line.text = .include wanted)
    (nested : nests divided (line.command :: commands)) : nests divided commands := by
  rw [line.written.eq_including reads] at nested
  exact nested

/-- The passes stay in step along an expansion, and the groups around a file are
left as they were. -/
theorem Expands.inStep
    (expands : Expands settings stack path branches macros (script.map fun line => line.text)
      events (.ok final)) (scripts : AllScripts settings)
    (nested : nests divided (script.map ScriptLine.command))
    (tracks : Tracks outer divided branches macros state) (outside : outer.all Group.active) :
    InStep outer final state events := by
  generalize ended : Except.ok final = ending at expands
  generalize shape : script.map (fun line => line.text) = sourceLines at expands
  induction expands generalizing final script outer divided state with
  | done =>
    obtain rfl := map_eq_nil_iff.mp shape
    obtain rfl := Except.ok.inj ended
    obtain rfl := List.isEmpty_iff.mp nested
    obtain ⟨rfl, -⟩ := tracks.groups.eq_outer
    exact ⟨fun _ mem => (not_mem_nil mem).elim, tracks⟩
  | kept ne later ih =>
    obtain ⟨line, rest, rfl, rfl, rfl⟩ := map_eq_cons_iff.mp shape
    obtain ⟨after, nestedAfter, tracksAfter⟩ := tracks.kept outside line.written ne nested
    refine .cons ⟨by simp, by simp [Event.meeting?]⟩ ?_
    exact ih nestedAfter tracksAfter outside ended rfl
  | skipped reads dead later ih =>
    obtain ⟨line, rest, rfl, rfl, rfl⟩ := map_eq_cons_iff.mp shape
    refine .marker (by simp) (accords_skipped _ (by rw [tracks.isActive outside, dead])) ?_
    exact ih (nests_of_include reads nested) tracks outside ended rfl
  | circular meets inside later ih =>
    obtain ⟨line, rest, rfl, rfl, rfl⟩ := map_eq_cons_iff.mp shape
    obtain ⟨wanted, reads, -⟩ := meets.reads
    refine .marker (by simp) (accords_met rfl (by rw [tracks.isActive outside, meets.live])) ?_
    exact ih (nests_of_include reads nested) tracks outside ended rfl
  | refused => cases ended
  | failed asks fails recovers later ih =>
    obtain ⟨line, rest, rfl, rfl, rfl⟩ := map_eq_cons_iff.mp shape
    obtain ⟨wanted, reads, -⟩ := asks.reads
    refine .marker (by simp) (accords_met rfl (by rw [tracks.isActive outside, asks.live])) ?_
    exact ih (nests_of_include reads nested) tracks outside ended rfl
  | broken => cases ended
  | opened asks fetches inside later inner ih =>
    obtain ⟨line, rest, rfl, rfl, rfl⟩ := map_eq_cons_iff.mp shape
    obtain ⟨wanted, reads, -⟩ := asks.reads
    have active := (tracks.isActive outside).trans asks.live
    obtain ⟨file, rfl⟩ := scripts _ _ fetches
    -- The file inside starts without groups of its own, inside the groups met here.
    have first := inner file.nested ⟨.nil, tracks.macros⟩ active rfl file.lines_source.symm
    refine .marker (by simp) (accords_met rfl active) (first.append ?_)
    have restored : Matches _ _ _ (stateAfter _ _).groups :=
      first.ends.groups.eq_outer.2 ▸ tracks.groups
    exact ih (nests_of_include reads nested) ⟨restored, first.ends.macros⟩ outside
      ended rfl
  | stopped => cases ended

end Runs

/-! Lines that are put out. -/

/-- A comment with a path is one line if the path is. -/
theorem exists_commentLine (listed : comment ∈ comments) (clean : '\n' ∉ target.toList) :
    ∃ line : Conditional.SourceLine, line.text = comment target := by
  obtain ⟨rest, front⟩ := comment_toList listed target
  refine ⟨⟨comment target, ?_, ?_⟩, rfl⟩
  · obtain ⟨marker, rfl, single, -⟩ := exists_marker listed
    simp [single, clean]
  · rw [trimStart, front, opensWithHash, String.toList_ofList]
    rfl

section Output

variable {settings : Settings} {stack macros : List String} {path wanted : String}
  {branches : List Branch} {events : List Event}

theorem lineFeed_not_mem_target {line : ScriptLine}
    (reads : Line.ofText line.text = .include wanted)
    (clean : '\n' ∉ (Path.directory path).toList) : '\n' ∉ (Path.resolve path wanted).toList := by
  have written := line.written
  rw [written.eq_including reads] at written
  have inLine : ∀ c ∈ wanted.toList, c ∈ line.text.toList := by
    rcases ofText_including written with ⟨found, finds, inside⟩ | plain
    · grind
    · rw [plain] at reads
      cases reads
  intro mem
  rcases Path.mem_resolve mem with mark | inDirectory | inWanted
  · exact absurd mark (by decide)
  · exact clean inDirectory
  · exact line.single (inLine _ inWanted)

/-- Every line that is put out is one line, and none is continued. -/
def Spelled (events : List Event) : Prop :=
  ∃ sources : List Conditional.SourceLine, sources.map Conditional.SourceLine.text = outputs events

theorem Spelled.cons {line : Conditional.SourceLine} (here : event.output = [line.text])
    (later : Spelled events) : Spelled (event :: events) := by
  obtain ⟨sources, texts⟩ := later
  refine ⟨line :: sources, ?_⟩
  rw [map_cons, texts, outputs, outputs, flatMap_cons, here]
  rfl

/-- A comment is left for an include. -/
theorem Spelled.marker (listed : comment ∈ comments) {line : ScriptLine}
    (reads : Line.ofText line.text = .include wanted) (clean : '\n' ∉ (Path.directory path).toList)
    (here : event.output = [comment (Path.resolve path wanted)]) (later : Spelled events) :
    Spelled (event :: events) := by
  obtain ⟨source, spelled⟩ := exists_commentLine listed (lineFeed_not_mem_target reads clean)
  exact later.cons (here.trans (by rw [spelled]))

theorem Expands.spelled {ending : Except Fault (List String)}
    (expands : Expands settings stack path branches macros (script.map fun line => line.text)
      events ending) (scripts : AllScripts settings) (clean : '\n' ∉ (Path.directory path).toList) :
    Spelled events := by
  generalize shape : script.map (fun line => line.text) = sourceLines at expands
  induction expands generalizing script with
  | done | refused => exact ⟨[], rfl⟩
  | kept ne later ih =>
    obtain ⟨line, rest, rfl, rfl, rfl⟩ := map_eq_cons_iff.mp shape
    exact @Spelled.cons _ _ line.toSourceLine rfl (ih clean rfl)
  | skipped reads dead later ih =>
    obtain ⟨line, rest, rfl, rfl, rfl⟩ := map_eq_cons_iff.mp shape
    exact .marker (by simp [comments]) reads clean rfl (ih clean rfl)
  | circular meets inside later ih =>
    obtain ⟨line, rest, rfl, rfl, rfl⟩ := map_eq_cons_iff.mp shape
    obtain ⟨wanted, reads, rfl⟩ := meets.reads
    exact .marker (by simp [comments]) reads clean rfl (ih clean rfl)
  | failed asks fails recovers later ih =>
    obtain ⟨line, rest, rfl, rfl, rfl⟩ := map_eq_cons_iff.mp shape
    obtain ⟨wanted, reads, rfl⟩ := asks.reads
    exact .marker (by simp [comments]) reads clean rfl (ih clean rfl)
  | broken asks fails stops =>
    obtain ⟨line, rest, rfl, rfl, rfl⟩ := map_eq_cons_iff.mp shape
    obtain ⟨wanted, reads, rfl⟩ := asks.reads
    exact .marker (by simp [comments]) reads clean rfl ⟨[], rfl⟩
  | opened asks fetches inside later inner ih =>
    obtain ⟨line, rest, rfl, rfl, rfl⟩ := map_eq_cons_iff.mp shape
    obtain ⟨wanted, reads, rfl⟩ := asks.reads
    obtain ⟨file, rfl⟩ := scripts _ _ fetches
    have below := lineFeed_not_mem_target reads clean
    obtain ⟨first, firstTexts⟩ := inner (fun mem => below (Path.mem_directory mem))
      file.lines_source.symm
    obtain ⟨second, secondTexts⟩ := ih clean rfl
    refine ⟨first ++ second, ?_⟩
    rw [map_append, firstTexts, secondTexts, outputs, outputs, outputs, flatMap_cons,
      flatMap_append]
    rfl
  | stopped asks fetches inside inner =>
    obtain ⟨line, rest, rfl, rfl, rfl⟩ := map_eq_cons_iff.mp shape
    obtain ⟨wanted, reads, rfl⟩ := asks.reads
    obtain ⟨file, rfl⟩ := scripts _ _ fetches
    have below := lineFeed_not_mem_target reads clean
    exact inner (fun mem => below (Path.mem_directory mem))
      file.lines_source.symm

end Output

def startState (predefined : List (String × String)) : State :=
  ⟨MacroTable.ofPairs predefined, []⟩

theorem Tracks.start (predefined : List (String × String)) :
    Tracks [] [] [] (predefined.map Prod.fst) (startState predefined) :=
  ⟨.nil, .ofPairs predefined⟩

/-- A comment for a skipped include is left only if conditional compilation is active there. -/
theorem isActive_of_skipped_survives (survives : .skipped target ∈ survivors state events) :
    ∃ entry ∈ statesAt state events, entry.1 = .skipped target ∧ entry.2.isActive := by
  obtain ⟨entry, listed, named⟩ := mem_map.mp survives
  obtain ⟨mem, kept⟩ := mem_filter.mp listed
  have step := @step_comment skippedComment (by simp [comments]) target entry.2
  grind [Event.output, run_line]

theorem resolve_value (predefined : List (String × String)) (source : String) :
    (resolve predefined source).value.1 =
      unlines ((startState predefined).run (joinedLines source)).value.1 := by
  rfl

/-- The two passes agree on dead branches, for files that test names only. If
the expansion gives a text, then conditional compilation of the text under the
same macros leaves none of the comments for skipped includes, and it is active
at every line at which an include was expanded, or left a comment because its
file was being expanded already or could not be had. -/
theorem expand_agrees_with_resolve (settings : Settings) (script : Script) (path : String)
    (predefined : List (String × String)) (scripts : AllScripts settings)
    (clean : '\n' ∉ (Path.directory path).toList) {text : String}
    (returned : (runExpansion (predefined.map Prod.fst)
      (expand settings script.source path)).value.1 = .ok text) :
    ∃ events macros,
      Expands settings [path] path [] (predefined.map Prod.fst) (lines script.source) events
        (.ok macros) ∧
      joinedLines text = outputs events ∧
      (resolve predefined text).value.1 =
        unlines (outputs (survivors (startState predefined) events)) ∧
      (∀ target, .skipped target ∉ survivors (startState predefined) events) ∧
      ∀ event state, (event, state) ∈ statesAt (startState predefined) events →
        event.meeting?.isSome = true → state.isActive = true := by
  obtain ⟨events, ending, expands, -, ends⟩ :=
    expand_expands settings script.source path (predefined.map Prod.fst)
  rw [ends] at returned
  cases ending with
  | error fault => cases returned
  | ok macros =>
    obtain rfl := Except.ok.inj returned
    have ofScript := script.lines_source ▸ expands
    obtain ⟨sources, texts⟩ := ofScript.spelled scripts clean
    have present : sources ≠ [] := by
      rintro rfl
      exact expands.outputs_ne_nil (lines_ne_nil _) texts.symm
    have joined : joinedLines (unlines (outputs events)) = outputs events := by
      rw [← texts, joinedLines_unlines present]
    have inStep := ofScript.inStep scripts script.nested (Tracks.start predefined) rfl
    refine ⟨events, macros, expands, joined, ?_, ?_, ?_⟩
    · rw [resolve_value, joined, outputs_survivors]
    · intro target survives
      obtain ⟨entry, member, named, active⟩ := isActive_of_skipped_survives survives
      rw [(inStep.accords entry member).skipped target named] at active
      cases active
    · intro event state member met
      obtain ⟨meeting, found⟩ := Option.isSome_iff_exists.mp met
      exact (inStep.accords _ member).met meeting found

/-! A group with two includes. -/

def defineLine : ScriptLine :=
  ⟨⟨"#define A", by decide, by decide⟩, .define "A",
    ⟨" A".toList, [], ⟨⟨[], [], rfl, rfl, by decide⟩, by decide⟩,
      ⟨[' '], by decide, by decide, by decide⟩, by decide, by decide⟩⟩

def testLine : ScriptLine :=
  ⟨⟨"#ifdef A", by decide, by decide⟩, .test true "A",
    ⟨" A".toList, [], ⟨⟨[], [], rfl, rfl, by decide⟩, by decide⟩,
      ⟨⟨[' '], by decide, by decide, by decide⟩, by decide, by decide⟩, by
        simp [EndsName, withoutComments, blankBlockComments,
          cutLineComment]⟩⟩

def firstInclude : ScriptLine :=
  ⟨⟨"#include \"a.inc\"", by decide, by decide⟩, .including,
    ⟨" \"a.inc\"".toList, ⟨[], [], rfl, rfl, by decide⟩, by decide⟩⟩

def secondInclude : ScriptLine :=
  ⟨⟨"#include \"b.inc\"", by decide, by decide⟩, .including,
    ⟨" \"b.inc\"".toList, ⟨[], [], rfl, rfl, by decide⟩, by decide⟩⟩

def dividingLine : ScriptLine :=
  ⟨⟨"#else", by decide, by decide⟩, .otherwise, ⟨[], ⟨[], [], rfl, rfl, by decide⟩, by decide⟩⟩

def closingLine : ScriptLine :=
  ⟨⟨"#endif", by decide, by decide⟩, .endGroup, ⟨[], ⟨[], [], rfl, rfl, by decide⟩, by decide⟩⟩

theorem text_written {line : List Char} (opens : (line.dropWhile isBlank).head? ≠ some '#') :
    Command.text.Written line := by
  intro rest shape
  rw [shape] at opens
  exact absurd rfl opens

def textLine : ScriptLine :=
  ⟨⟨"x", by decide, by decide⟩, .text, text_written (by decide)⟩

/-- Includes in both branches of a group, of which the first is live. -/
def dividedScript : Script where
  lines := [defineLine, testLine, firstInclude, dividingLine, secondInclude, closingLine]
  present := by simp
  nested := by decide

def oneFile : Files := fun path =>
  if path = "a.inc" then .ok "x" else .error .missingFile

theorem allScripts_oneFile (maxDepth : Int) : AllScripts ⟨oneFile, maxDepth⟩ := by
  intro target text found
  have here : oneFile target = .ok text := found
  unfold oneFile at here
  split at here
  · obtain rfl := Except.ok.inj here
    exact ⟨⟨[textLine], by simp, by decide⟩, by simp [Script.source, textLine]⟩
  · cases here

theorem expand_dividedScript :
    (runExpansion [] (expand ⟨oneFile, 8⟩ dividedScript.source "main")).value.1 =
      .ok ("#define A\n#ifdef A\nx\n#else\n" ++
        "// Skipped include in inactive branch: b.inc\n#endif") := by
  have reads := ofText_define defineLine.written
  have tests := ofText_test testLine.written
  have divides := ofText_otherwise dividingLine.written
  have closes := ofText_endGroup closingLine.written
  have plain := ofText_text textLine.written
  have readsFirst : Line.ofText firstInclude.text = .include "a.inc" := by decide +kernel
  have readsSecond : Line.ofText secondInclude.text = .include "b.inc" := by decide +kernel
  have single : lines "x" = [textLine.text] := by decide
  have fromMain : Path.resolve "main" "a.inc" = "a.inc" := by decide +kernel
  have skips : Path.resolve "main" "b.inc" = "b.inc" := by decide +kernel
  rw [expand, Script.lines_source]
  simp only [dividedScript, map_cons, expandLines, reads, divides, closes,
    readsFirst, readsSecond, fromMain, skips]
  simp [fetch?, oneFile, expandLines, single]
  rfl

theorem expand_agrees_with_resolve_divided :
    (runExpansion [] (expand ⟨oneFile, 8⟩ dividedScript.source "main")).value.1 =
        .ok ("#define A\n#ifdef A\nx\n#else\n" ++
          "// Skipped include in inactive branch: b.inc\n#endif") ∧
      ∃ events macros,
        Expands ⟨oneFile, 8⟩ ["main"] "main" [] [] (lines dividedScript.source) events
          (.ok macros) ∧
        (∀ target, .skipped target ∉ survivors (startState []) events) ∧
        ∀ event state, (event, state) ∈ statesAt (startState []) events →
          event.meeting?.isSome = true → state.isActive = true := by
  obtain ⟨events, macros, expands, -, -, none, active⟩ :=
    expand_agrees_with_resolve ⟨oneFile, 8⟩ dividedScript "main" [] (allScripts_oneFile 8)
      (by decide) expand_dividedScript
  exact ⟨expand_dividedScript, events, macros, expands, none, active⟩

/-- Two includes in a group that is not live. -/
def deadScript : Script where
  lines := [testLine, firstInclude, secondInclude, closingLine]
  present := by simp
  nested := by decide

/-- What the dead includes leave if their directory holds a line that closes the group. -/
def deadText : String :=
  "#ifdef A\n// Skipped include in inactive branch: d\n#endif\n/a.inc\n" ++
    "// Skipped include in inactive branch: d\n#endif\n/b.inc\n#endif"

theorem expand_deadScript :
    (runExpansion [] (expand ⟨oneFile, 8⟩ deadScript.source "d\n#endif\n/main")).value.1 =
      .ok deadText := by
  have tests := ofText_test testLine.written
  have closes := ofText_endGroup closingLine.written
  have readsFirst : Line.ofText firstInclude.text = .include "a.inc" := by decide +kernel
  have readsSecond : Line.ofText secondInclude.text = .include "b.inc" := by decide +kernel
  have first : Path.resolve "d\n#endif\n/main" "a.inc" = "d\n#endif\n/a.inc" := by decide +kernel
  have second : Path.resolve "d\n#endif\n/main" "b.inc" = "d\n#endif\n/b.inc" := by decide +kernel
  rw [expand, Script.lines_source]
  simp only [deadScript, map_cons, map_nil, expandLines, readsFirst,
    readsSecond, first, second]
  rfl

/-- A directory with a line feed puts a directive into the comment for an
include, so the comment for a later one is left. -/
theorem skippedComment_survives_lineFeed :
    AllScripts ⟨oneFile, 8⟩ ∧
      ∃ text, (runExpansion [] (expand ⟨oneFile, 8⟩ deadScript.source
          "d\n#endif\n/main")).value.1 = .ok text ∧
        (resolve [] text).value.1 =
          "/a.inc\n// Skipped include in inactive branch: d\n/b.inc" := by
  refine ⟨allScripts_oneFile 8, deadText, expand_deadScript, ?_⟩
  have spelled : joinedLines deadText =
      ["#ifdef A", skippedComment "d", "#endif", "/a.inc", skippedComment "d", "#endif", "/b.inc",
        "#endif"] := by decide +kernel
  have tests : ∀ state : State, (state.step "#ifdef A").value = (false, state.openTest true "A") :=
    step_test testLine.written
  have closes : ∀ state : State, (state.step "#endif").value = (false, state.closeGroup.value) :=
    step_endGroup closingLine.written
  have comment := @step_comment skippedComment (by simp [comments]) "d"
  have plain : ∀ line ∈ ["/a.inc", "/b.inc"], ∀ state : State,
      (state.step line).value = (state.isActive, state) := by
    intro line listed
    simp only [List.mem_cons, List.not_mem_nil, or_false] at listed
    rcases listed with rfl | rfl <;> exact step_text (text_written (by decide))
  rw [resolve_value, spelled]
  simp only [run_cons, Noted.value_bind, tests, closes, comment, plain _ List.mem_cons_self,
    plain _ (List.mem_cons_of_mem _ List.mem_cons_self)]
  rfl

end WebShader.Include
