import WebShader.Proofs.Include.Script

/-!
Contract: a resolved source is resolved again without any change.

Owns: the lines that joining leaves and conditional compilation keeps, for every
source, nested properly or not, and what a second resolution makes of them.

Two facts about single lines carry the argument. Joining leaves no line that is
continued, as long as the source does not end before a continued one does. And a
line that opens, divides or closes a group is never kept, whatever the open
groups are. Lines of both kinds are plain, and plain lines outside of all groups
stay as they are under every macro table.
-/

namespace WebShader.Conditional

open List Text

variable {state : State} {line text : String}

/-- Whether a line is a directive that goes on in the next line. -/
def continues (line : String) : Bool :=
  opensWithHash (trimStart line) && endsWithBackslash (trimEnd line)

/-- A directive without the backslash at its end, and the line behind it. -/
def joinLine (text line : String) : String :=
  trimEnd (String.ofList text.toList.dropLast) ++ " " ++ trimStart line

/-- The directive that goes on behind a line, given the one that goes on in it. -/
def openAfter (pending : Option String) (line : String) : Option String :=
  match pending with
  | none => if continues line then some (trimEnd line) else none
  | some text =>
    if endsWithBackslash (trimEnd (joinLine text line)) then some (trimEnd (joinLine text line))
    else none

def endsInDirective (source : String) : Bool :=
  ((lines source).foldl openAfter none).isSome

/-! Joined lines. -/

theorem joinFrom_cons_none (line : String) (rest : List String) :
    joinFrom none (line :: rest) =
      if continues line then joinFrom (some (trimEnd line)) rest
      else line :: joinFrom none rest := rfl

theorem joinFrom_cons_some (text line : String) (rest : List String) :
    joinFrom (some text) (line :: rest) =
      if endsWithBackslash (trimEnd (joinLine text line)) then
        joinFrom (some (trimEnd (joinLine text line))) rest
      else joinLine text line :: joinFrom none rest := rfl

theorem mem_of_mem_trimEnd {c : Char} (mem : c ∈ (trimEnd text).toList) : c ∈ text.toList := by
  rw [trimEnd, String.toList_ofList, trimEndWhere, mem_reverse] at mem
  exact mem_reverse.mp ((dropWhile_suffix _).subset mem)

theorem not_mem_joinLine (inText : '\n' ∉ text.toList) (inLine : '\n' ∉ line.toList) :
    '\n' ∉ (joinLine text line).toList := by
  intro mem
  simp only [joinLine, String.toList_append, mem_append] at mem
  grind [mem_of_mem_trimEnd, String.toList_ofList, dropLast_sublist, trimStart, dropWhile_suffix]

/-- A joined line is one line, and no directive that goes on. -/
def IsJoined (line : String) : Prop :=
  '\n' ∉ line.toList ∧ continues line = false

theorem isJoined_of_joinLine (single : '\n' ∉ (joinLine text line).toList)
    (ends : ¬endsWithBackslash (trimEnd (joinLine text line))) :
    IsJoined (joinLine text line) := by
  refine ⟨single, ?_⟩
  rw [continues, Bool.eq_false_iff.mpr ends, Bool.and_false]

/-- Joining leaves joined lines only, unless a directive is still open at the end. -/
theorem isJoined_of_mem_joinFrom {pending : Option String} {given : List String}
    (closed : given.foldl openAfter pending = none)
    (singlePending : ∀ text, pending = some text → '\n' ∉ text.toList)
    (single : ∀ line ∈ given, '\n' ∉ line.toList) :
    ∀ line ∈ joinFrom pending given, IsJoined line := by
  induction given generalizing pending with
  | nil =>
    obtain rfl : pending = none := closed
    intro line mem
    cases mem
  | cons line rest ih =>
    obtain ⟨here, others⟩ := forall_mem_cons.mp single
    cases pending with
    | none =>
      rw [foldl_cons, openAfter] at closed
      rw [joinFrom_cons_none]
      by_cases goesOn : continues line = true
      · grind [mem_of_mem_trimEnd]
      · rw [if_neg goesOn] at closed ⊢
        refine forall_mem_cons.mpr ⟨⟨here, Bool.eq_false_iff.mpr goesOn⟩, ?_⟩
        exact ih closed (by rintro _ ⟨⟩) others
    | some text =>
      have joined := not_mem_joinLine (singlePending text rfl) here
      rw [foldl_cons, openAfter] at closed
      rw [joinFrom_cons_some]
      by_cases goesOn : endsWithBackslash (trimEnd (joinLine text line)) = true
      · grind [mem_of_mem_trimEnd]
      · rw [if_neg goesOn] at closed ⊢
        refine forall_mem_cons.mpr ⟨isJoined_of_joinLine joined goesOn, ?_⟩
        exact ih closed (by rintro _ ⟨⟩) others

theorem isJoined_of_mem_joinedLines {source : String} (ends : endsInDirective source = false) :
    ∀ line ∈ joinedLines source, IsJoined line := by
  have closed : (lines source).foldl openAfter none = none := by
    simpa [endsInDirective] using ends
  exact isJoined_of_mem_joinFrom closed (by rintro _ ⟨⟩) fun line mem => not_mem_of_mem_lines mem

/-! Kept lines. -/

namespace State

/-- A line that is kept opens, divides and closes no group. -/
theorem unconditional_of_step (kept : (state.step line).value.1) (directive : Directive)
    (reads : Directive.ofLine? line = some directive) :
    directive.keyword ∉ conditionalKeywords := by
  intro listed
  obtain ⟨effect, found⟩ : ∃ effect, state.conditional? directive = some effect := by
    obtain ⟨keyword, arg⟩ := directive
    simp only [conditionalKeywords, mem_cons, not_mem_nil, or_false] at listed
    rcases listed with rfl | rfl | rfl | rfl | rfl | rfl <;> exact ⟨_, rfl⟩
  rw [step_of_conditional reads found] at kept
  cases kept

theorem mem_run {given : List String} (mem : line ∈ (state.run given).value.1) :
    line ∈ given ∧ ∀ directive, Directive.ofLine? line = some directive →
      directive.keyword ∉ conditionalKeywords := by
  induction given generalizing state with
  | nil => cases mem
  | cons first rest ih =>
    rw [run_cons] at mem
    simp only [Noted.value_bind] at mem
    have later (mem : line ∈ ((state.step first).value.2.run rest).value.1) :=
      (ih mem).imp_left (mem_cons_of_mem first)
    split at mem
    next kept =>
      rcases mem_cons.mp mem with rfl | behind
      · exact ⟨mem_cons_self, unconditional_of_step kept⟩
      · exact later behind
    · exact later mem

/-- Outside of inactive groups plain lines are kept, whatever macros are in force. -/
theorem run_plain (active : state.isActive) (given : List PlainLine) :
    (state.run (given.map fun line => line.text)).value.1 = given.map fun line => line.text := by
  induction given generalizing state with
  | nil => rfl
  | cons line rest ih =>
    rw [map_cons, run_cons, step_plain_active line active]
    exact congrArg (line.text :: ·) (ih active)

end State

/-! Sources. -/

theorem resolve_text (predefined : List (String × String)) (source : String) :
    (resolve predefined source).value.1 =
      unlines (State.run ⟨MacroTable.ofPairs predefined, []⟩ (joinedLines source)).value.1 := rfl

/-- A source of plain lines stays as it is. -/
theorem resolve_plain (predefined : List (String × String)) (given : List PlainLine) :
    (resolve predefined (unlines (given.map fun line => line.text))).value.1 =
      unlines (given.map fun line => line.text) := by
  cases given with
  | nil => rfl
  | cons line rest =>
    have joined := @joinedLines_unlines ((line :: rest).map PlainLine.toSourceLine) (by simp)
    rw [map_map] at joined
    exact congrArg unlines ((congrArg (fun found => (State.run _ found).value.1) joined).trans
      (State.run_plain rfl (line :: rest)))

/-- The lines of a resolved source are plain. -/
theorem exists_plain_lines (predefined : List (String × String)) {source : String}
    (ends : endsInDirective source = false) :
    ∃ given : List PlainLine, (resolve predefined source).value.1 =
      unlines (given.map fun line => line.text) := by
  have plain : ∀ line ∈ (State.run ⟨MacroTable.ofPairs predefined, []⟩ (joinedLines source)).value.1,
      ∃ found : PlainLine, found.text = line := by
    intro line mem
    obtain ⟨listed, unconditional⟩ := State.mem_run mem
    obtain ⟨single, whole⟩ := isJoined_of_mem_joinedLines ends line listed
    exact ⟨⟨⟨line, single, whole⟩, unconditional⟩, rfl⟩
  rw [resolve_text]
  generalize (State.run _ (joinedLines source)).value.1 = kept at plain
  obtain ⟨given, rfl⟩ : ∃ given : List PlainLine, given.map (fun line => line.text) = kept := by
    induction kept with
    | nil => exact ⟨[], rfl⟩
    | cons line rest ih =>
      obtain ⟨⟨found, rfl⟩, others⟩ := forall_mem_cons.mp plain
      obtain ⟨given, rfl⟩ := ih others
      exact ⟨found :: given, rfl⟩
  exact ⟨given, rfl⟩

theorem mem_lines_unlines {given : List PlainLine}
    (mem : line ∈ lines (unlines (given.map fun line => line.text))) :
    ∃ found : PlainLine, found.text = line := by
  cases given with
  | nil =>
    obtain rfl := mem_singleton.mp mem
    exact ⟨⟨⟨"", by decide, by decide⟩, by rintro directive ⟨⟩⟩, rfl⟩
  | cons first rest =>
    rw [lines_unlines (by simp)] at mem
    · grind
    · intro piece listed
      obtain ⟨found, -, rfl⟩ := mem_map.mp listed
      exact found.single

/-- A plain line is not written as a conditional directive. -/
theorem PlainLine.not_gives (line : PlainLine) {keyword : String}
    (listed : keyword ∈ conditionalKeywords) (arg : List Char) :
    ¬Include.Gives line.text.toList keyword arg := by
  intro gives
  have known : keyword ∈ Include.reserved := by
    have all : (conditionalKeywords.all Include.reserved.contains) := by decide
    simpa using all_eq_true.mp all keyword listed
  exact line.unconditional _ (gives.ofLine? known) listed

/-- Resolving is final. Whatever the nesting of the groups, and whatever macros were and are
predefined: what is left of a source that ends outside of a continued directive has no
conditional directive and no continued one, and resolving it again leaves it as it is. -/
theorem resolve_resolved (first second : List (String × String)) {source : String}
    (ends : endsInDirective source = false) :
    (∀ line ∈ lines (resolve first source).value.1,
      (∀ keyword ∈ conditionalKeywords, ∀ argument,
        ¬Include.Gives line.toList keyword argument) ∧ continues line = false) ∧
    (resolve second (resolve first source).value.1).value.1 = (resolve first source).value.1 := by
  obtain ⟨given, shape⟩ := exists_plain_lines first ends
  rw [shape]
  refine ⟨fun line member => ?_, resolve_plain second given⟩
  obtain ⟨found, rfl⟩ := mem_lines_unlines member
  exact ⟨fun keyword listed => found.not_gives listed, found.whole⟩

/-- A group that is closed but not opened, a definition over two lines whose first one ends in
two backslashes, and a group that is not closed. -/
theorem resolve_resolved_unbalanced :
    endsInDirective "#endif\n#define A \\\\\n 1\n#ifdef A\nx\n# else\ny" = false ∧
      (resolve [] "#endif\n#define A \\\\\n 1\n#ifdef A\nx\n# else\ny").value.1 =
        "#define A \\ 1\nx" ∧
      (resolve [("B", "1")] "#define A \\ 1\nx").value.1 = "#define A \\ 1\nx" := by
  have ends : endsInDirective "#endif\n#define A \\\\\n 1\n#ifdef A\nx\n# else\ny" = false := by
    decide +kernel
  have resolved : (resolve [] "#endif\n#define A \\\\\n 1\n#ifdef A\nx\n# else\ny").value.1 =
      "#define A \\ 1\nx" := by
    decide +kernel
  have again := (resolve_resolved [] [("B", "1")] ends).2
  rw [resolved] at again
  exact ⟨ends, resolved, again⟩

end WebShader.Conditional
