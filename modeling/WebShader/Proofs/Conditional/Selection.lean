import WebShader.Conditional.Resolution
import WebShader.Proofs.Text.Lines

/-!
Contract: the stack of open groups computes what the tree interpreter selects.

Owns: source as a tree of nested groups, the interpreter of trees, the effect of
every kind of line on a state, the run over the lines of a block in active and
in inactive code, and the refinement of the interpreter.

The interpreter knows no stack: it walks into the first branch whose test holds
and into no other one.

The invariant of a run is on the innermost group. A group is settled if it can
choose no further branch, because one was chosen or because it lies in inactive
code: the rest of it changes nothing. A group is open if it lies in active code
and chose no branch yet: the rest of it selects what its tail selects.
-/

namespace WebShader.Conditional

open State

/-- A line of a source. It holds no line feed, and it is no directive that goes
on in the next line: blanks at its end aside, a line whose first character is a
hash does not end in a backslash. -/
structure SourceLine where
  text : String
  single : '\n' ∉ text.toList
  whole : (opensWithHash (Text.trimStart text) && endsWithBackslash (Text.trimEnd text)) = false

/-- A line with a directive of a given keyword. -/
structure KeywordLine (keyword : String) extends SourceLine where
  argument : String
  reads : Directive.ofLine? text = some ⟨keyword, argument⟩

def conditionalKeywords : List String :=
  ["if", "ifdef", "ifndef", "elif", "else", "endif"]

/-- A line that opens, divides or closes no group. -/
structure PlainLine extends SourceLine where
  unconditional : ∀ directive,
    Directive.ofLine? text = some directive → directive.keyword ∉ conditionalKeywords

inductive Test where
  | condition
  | defined
  | undefined
  deriving DecidableEq, Repr

namespace Test

open State

def keyword : Test → String
  | .condition => "if"
  | .defined => "ifdef"
  | .undefined => "ifndef"

def holds (table : MacroTable) (argument : String) : Test → Noted Bool
  | .condition => table.conditionHolds argument
  | .defined => pure (table.defines (firstWord argument))
  | .undefined => pure (!table.defines (firstWord argument))

end Test

mutual

/-- A sequence of plain lines and groups. -/
inductive Block where
  | nil
  | plain (line : PlainLine) (rest : Block)
  | group (test : Test) (opening : KeywordLine test.keyword) (body : Block) (tail : Tail)
      (rest : Block)

/-- The end of a group, from what follows its first branch. -/
inductive Tail where
  | close (closing : KeywordLine "endif")
  | otherwise (dividing : KeywordLine "else") (body : Block) (closing : KeywordLine "endif")
  | elseIf (dividing : KeywordLine "elif") (body : Block) (tail : Tail)

end

mutual

def Block.lines : Block → List SourceLine
  | .nil => []
  | .plain line rest => line.toSourceLine :: rest.lines
  | .group _ opening body tail rest =>
    opening.toSourceLine :: body.lines ++ (tail.lines ++ rest.lines)

def Tail.lines : Tail → List SourceLine
  | .close closing => [closing.toSourceLine]
  | .otherwise dividing body closing =>
    dividing.toSourceLine :: body.lines ++ [closing.toSourceLine]
  | .elseIf dividing body tail => dividing.toSourceLine :: body.lines ++ tail.lines

end

def Block.texts (block : Block) : List String :=
  block.lines.map SourceLine.text

def Tail.texts (tail : Tail) : List String :=
  tail.lines.map SourceLine.text

def Block.source (block : Block) : String :=
  Text.unlines block.texts

/-- The macros in force after a selected line: a definition adds one, an
undefinition removes one, and every other line leaves them as they are. -/
def MacroTable.afterLine (table : MacroTable) (line : String) : Noted MacroTable :=
  match Directive.ofLine? line with
  | some ⟨"define", argument⟩ =>
    match Macro.ofArgument? argument with
    | some definition => pure (table.insert definition)
    | none => do
        Noted.note (.malformedDefine argument)
        return table
  | some ⟨"undef", argument⟩ => pure (table.erase (firstWord argument))
  | _ => pure table

/-- The lines that an interpreter selects, and the macros in force after them. -/
structure Selection where
  texts : List String
  table : MacroTable

mutual

/-- What a block that is reached selects. -/
def Block.select (table : MacroTable) : Block → Noted Selection
  | .nil => pure ⟨[], table⟩
  | .plain line rest => do
      let next ← table.afterLine line.text
      let others ← rest.select next
      return ⟨line.text :: others.texts, others.table⟩
  | .group test opening body tail rest => do
      let chosen ← test.holds table opening.argument
      let branch ← if chosen then body.select table else tail.select table
      let others ← rest.select branch.table
      return ⟨branch.texts ++ others.texts, others.table⟩

/-- What the later branches of a group select if no branch before them was chosen. -/
def Tail.select (table : MacroTable) : Tail → Noted Selection
  | .close _ => pure ⟨[], table⟩
  | .otherwise _ body _ => body.select table
  | .elseIf dividing body tail => do
      let chosen ← table.conditionHolds dividing.argument
      if chosen then body.select table else tail.select table

end

end WebShader.Conditional

namespace WebShader.Conditional

open State


variable {directive : Directive} {state : State} {line : String}

namespace State

open State

/-! Single lines. -/

theorem step_of_conditional {effect : Noted State} (reads : Directive.ofLine? line = some directive)
    (found : state.conditional? directive = some effect) :
    state.step line = effect >>= fun next => pure (false, next) := by
  simp [step, reads, found]

theorem conditional?_eq_none (unconditional : directive.keyword ∉ conditionalKeywords)
    (state : State) : state.conditional? directive = none := by
  unfold conditional?
  split <;> simp_all [conditionalKeywords]

/-- A plain line in inactive code has no effect. -/
theorem step_plain_inactive (line : PlainLine) (inactive : state.isActive = false) :
    state.step line.text = pure (false, state) := by
  unfold step
  split
  · rw [inactive]
  next directive reads =>
    rw [conditional?_eq_none (line.unconditional directive reads)]
    simp [inactive]

theorem apply_eq_afterLine (state : State) (reads : Directive.ofLine? line = some directive) :
    state.apply directive =
      state.table.afterLine line >>= fun table => pure { state with table } := by
  obtain ⟨keyword, arg⟩ := directive
  unfold apply MacroTable.afterLine
  rw [reads]
  split
  next isDefine =>
    subst isDefine
    simp only [define]
    cases Macro.ofArgument? arg <;> simp
  next isUndef =>
    subst isUndef
    simp [undefine]
  simp_all

/-- A plain line in active code is kept and changes the macros only. -/
theorem step_plain_active (line : PlainLine) (active : state.isActive) :
    state.step line.text =
      state.table.afterLine line.text >>= fun table => pure (true, { state with table }) := by
  cases reads : Directive.ofLine? line.text with
  | none => simp [step, reads, active, MacroTable.afterLine]
  | some directive =>
    have noEffect := conditional?_eq_none (line.unconditional directive reads) state
    simp [step, reads, noEffect, active, apply_eq_afterLine state reads]

/-! Runs. -/

theorem run_nil (state : State) : state.run [] = pure ([], state) := rfl

theorem run_cons (state : State) (line : String) (rest : List String) :
    state.run (line :: rest) = state.step line >>= fun first =>
        first.2.run rest >>= fun second =>
          pure (if first.1 then line :: second.1 else second.1, second.2) := rfl

theorem run_append (state : State) (first second : List String) :
    state.run (first ++ second) = state.run first >>= fun left =>
        left.2.run second >>= fun right => pure (left.1 ++ right.1, right.2) := by
  induction first generalizing state with
  | nil => simp [run_nil]
  | cons line rest ih =>
    simp only [List.cons_append, run_cons, ih, bind_assoc]
    grind

/-- A line that is consumed passes its state on to the rest. -/
theorem run_of_consumed {effect : Noted State}
    (consumed : state.step line = effect >>= fun next => pure (false, next)) (rest : List String) :
    state.run (line :: rest) = effect >>= fun next => next.run rest := by
  simp [run_cons, consumed]

end State

/-! The lines of groups. -/

theorem Block.texts_nil : Block.nil.texts = [] := by
  simp [Block.texts, Block.lines]

theorem Block.texts_plain (line : PlainLine) (rest : Block) :
    (Block.plain line rest).texts = line.text :: rest.texts := by
  simp [Block.texts, Block.lines]

theorem Block.texts_group (test : Test) (opening : KeywordLine test.keyword) (body : Block)
    (tail : Tail) (rest : Block) :
    (Block.group test opening body tail rest).texts =
      opening.text :: (body.texts ++ (tail.texts ++ rest.texts)) := by
  simp [Block.texts, Tail.texts, Block.lines]

theorem Tail.texts_close (closing : KeywordLine "endif") :
    (Tail.close closing).texts = [closing.text] := by
  simp [Tail.texts, Tail.lines]

theorem Tail.texts_otherwise (dividing : KeywordLine "else") (body : Block)
    (closing : KeywordLine "endif") :
    (Tail.otherwise dividing body closing).texts =
      dividing.text :: (body.texts ++ [closing.text]) := by
  simp [Tail.texts, Block.texts, Tail.lines]

theorem Tail.texts_elseIf (dividing : KeywordLine "elif") (body : Block) (tail : Tail) :
    (Tail.elseIf dividing body tail).texts = dividing.text :: (body.texts ++ tail.texts) := by
  simp [Tail.texts, Block.texts, Tail.lines]

namespace State

open State

theorem step_opening_active {test : Test} (opening : KeywordLine test.keyword)
    (active : state.isActive) :
    state.step opening.text = (test.holds state.table opening.argument >>= fun chosen =>
        pure (state.pushGroup ⟨chosen, chosen, true⟩)) >>= fun next => pure (false, next) := by
  apply step_of_conditional opening.reads
  cases test with
  | condition => simp [conditional?, Test.keyword, Test.holds, openCondition, active]
  | defined => simp [conditional?, Test.keyword, Test.holds, openTest, active]
  | undefined => simp [conditional?, Test.keyword, Test.holds, openTest, active]

/-- In inactive code a group opens settled, whatever its test says. -/
theorem step_opening_inactive {test : Test} (opening : KeywordLine test.keyword)
    (inactive : state.isActive = false) :
    ∃ taken, state.step opening.text =
      pure (state.pushGroup ⟨false, taken, false⟩) >>= fun next => pure (false, next) := by
  cases test with
  | condition =>
    refine ⟨false, step_of_conditional opening.reads ?_⟩
    simp [conditional?, Test.keyword, openCondition, inactive]
  | defined =>
    refine ⟨state.table.defines (firstWord opening.argument) == true,
      step_of_conditional opening.reads ?_⟩
    simp [conditional?, Test.keyword, openTest, inactive]
  | undefined =>
    refine ⟨state.table.defines (firstWord opening.argument) == false,
      step_of_conditional opening.reads ?_⟩
    simp [conditional?, Test.keyword, openTest, inactive]

theorem step_elseIf (state : State) (dividing : KeywordLine "elif") :
    state.step dividing.text =
      state.elseCondition dividing.argument >>= fun next => pure (false, next) :=
  step_of_conditional dividing.reads rfl

theorem step_otherwise (state : State) (dividing : KeywordLine "else") :
    state.step dividing.text = state.otherwise >>= fun next => pure (false, next) :=
  step_of_conditional dividing.reads rfl

theorem run_closing (table : MacroTable) (group : Group) (outer : List Group)
    (closing : KeywordLine "endif") :
    run ⟨table, group :: outer⟩ [closing.text] = pure ([], ⟨table, outer⟩) := by
  rw [run_of_consumed (step_of_conditional closing.reads rfl)]
  simp [closeGroup, run_nil]

end State

/-! Inactive code. -/

/-- A group that can choose no further branch. -/
def Group.IsSettled (group : Group) : Prop :=
  group.taken = true ∨ group.parentActive = false

mutual

theorem Block.run_inactive (block : Block) (state : State) (inactive : state.isActive = false) :
    state.run block.texts = pure ([], state) := by
  cases block with
  | nil => rw [Block.texts_nil, run_nil]
  | plain line rest =>
    rw [Block.texts_plain, run_cons, step_plain_inactive line inactive]
    simp [rest.run_inactive state inactive]
  | group test opening body tail rest =>
    obtain ⟨taken, opened⟩ := step_opening_inactive opening inactive
    have bodyInactive : (state.pushGroup ⟨false, taken, false⟩).isActive = false := by
      simp [isActive, pushGroup]
    rw [Block.texts_group, run_of_consumed opened, pure_bind, run_append,
      body.run_inactive _ bodyInactive, pure_bind, run_append, pushGroup,
      tail.run_settled state.table state.groups (Or.inr rfl)]
    simp [rest.run_inactive state inactive]

theorem Tail.run_settled (tail : Tail) (table : MacroTable) {group : Group} (outer : List Group)
    (settled : group.IsSettled) :
    run ⟨table, group :: outer⟩ tail.texts = pure ([], ⟨table, outer⟩) := by
  cases tail with
  | close closing => rw [Tail.texts_close, run_closing]
  | otherwise dividing body closing =>
    have stopped : (group.parentActive && !group.taken) = false := by
      rcases settled with taken | dead <;> simp [*]
    have bodyInactive :
        isActive ⟨table, { group with active := false, taken := true } :: outer⟩ =
          false := by
      simp [isActive]
    rw [Tail.texts_otherwise, run_of_consumed (step_otherwise _ dividing)]
    simp only [otherwise, stopped, pure_bind]
    rw [run_append, body.run_inactive _ bodyInactive, pure_bind, run_closing]
    simp
  | elseIf dividing body tail =>
    have stopped : (group.taken || !group.parentActive) := by
      rcases settled with taken | dead <;> simp [*]
    have bodyInactive :
        isActive ⟨table, { group with active := false } :: outer⟩ = false := by
      simp [isActive]
    have stillSettled : Group.IsSettled { group with active := false } := settled
    rw [Tail.texts_elseIf, run_of_consumed (step_elseIf _ dividing)]
    simp only [elseCondition, stopped, ↓reduceIte, pure_bind]
    rw [run_append, body.run_inactive _ bodyInactive, pure_bind,
      tail.run_settled table outer stillSettled]
    simp

end

/-! Active code. -/

mutual

/-- In active code the lines of a block select what the interpreter selects. -/
theorem Block.run_active (block : Block) (state : State) (active : state.isActive) :
    state.run block.texts = block.select state.table >>= fun selection =>
        pure (selection.texts, { state with table := selection.table }) := by
  cases block with
  | nil => simp [Block.texts_nil, run_nil, Block.select]
  | plain line rest =>
    rw [Block.texts_plain, run_cons, step_plain_active line active]
    simp only [Block.select, bind_assoc, pure_bind]
    refine bind_congr fun table => ?_
    have restActive : isActive { state with table } := active
    rw [rest.run_active { state with table } restActive]
    simp
  | group test opening body tail rest =>
    rw [Block.texts_group, run_of_consumed (step_opening_active opening active)]
    simp only [Block.select, bind_assoc, pure_bind]
    refine bind_congr fun chosen => ?_
    rw [run_append]
    cases chosen with
    | true =>
      have bodyActive : (state.pushGroup ⟨true, true, true⟩).isActive := by
        simpa [isActive, pushGroup] using active
      rw [body.run_active _ bodyActive]
      simp only [↓reduceIte, bind_assoc, pure_bind, pushGroup]
      refine bind_congr fun branch => ?_
      have restActive : isActive ⟨branch.table, state.groups⟩ := active
      rw [run_append, tail.run_settled branch.table state.groups (Or.inl rfl), pure_bind,
        rest.run_active _ restActive]
      simp
    | false =>
      have bodyInactive : (state.pushGroup ⟨false, false, true⟩).isActive = false := by
        simp [isActive, pushGroup]
      rw [body.run_inactive _ bodyInactive, pure_bind, run_append, pushGroup,
        tail.run_open state.table state.groups active]
      simp only [Bool.false_eq_true, ↓reduceIte, bind_assoc, pure_bind]
      refine bind_congr fun branch => ?_
      have restActive : isActive ⟨branch.table, state.groups⟩ := active
      rw [rest.run_active _ restActive]
      simp

/-- The rest of a group in active code that chose no branch yet. -/
theorem Tail.run_open (tail : Tail) (table : MacroTable) (outer : List Group)
    (active : outer.all Group.active) :
    run ⟨table, ⟨false, false, true⟩ :: outer⟩ tail.texts =
      tail.select table >>= fun selection =>
        pure (selection.texts, ⟨selection.table, outer⟩) := by
  cases tail with
  | close closing => simp [Tail.texts_close, run_closing, Tail.select]
  | otherwise dividing body closing =>
    have bodyActive : isActive ⟨table, ⟨true, true, true⟩ :: outer⟩ := by
      simpa [isActive] using active
    rw [Tail.texts_otherwise, run_of_consumed (step_otherwise _ dividing)]
    simp only [otherwise, Bool.not_false, Bool.and_self, pure_bind]
    rw [run_append, body.run_active _ bodyActive]
    simp only [Tail.select, bind_assoc, pure_bind, run_closing]
    simp
  | elseIf dividing body tail =>
    rw [Tail.texts_elseIf, run_of_consumed (step_elseIf _ dividing)]
    simp only [elseCondition, Tail.select, Bool.not_true, Bool.or_self,
      Bool.false_eq_true, ↓reduceIte, bind_assoc, pure_bind]
    refine bind_congr fun chosen => ?_
    rw [run_append]
    cases chosen with
    | true =>
      have bodyActive : isActive ⟨table, ⟨true, true, true⟩ :: outer⟩ := by
        simpa [isActive] using active
      rw [body.run_active _ bodyActive]
      simp only [bind_assoc, pure_bind]
      refine bind_congr fun branch => ?_
      rw [tail.run_settled branch.table outer (Or.inl rfl)]
      simp
    | false =>
      have bodyInactive : isActive ⟨table, ⟨false, false, true⟩ :: outer⟩ = false := by
        simp [isActive]
      rw [body.run_inactive _ bodyInactive, pure_bind, tail.run_open table outer active]
      simp

end

/-! Whole sources. -/

theorem joinFrom_whole (lines : List SourceLine) :
    joinFrom none (lines.map SourceLine.text) = lines.map SourceLine.text := by
  induction lines with
  | nil => rfl
  | cons line rest ih =>
    simp [joinFrom, line.whole, ih]

theorem joinedLines_unlines {lines : List SourceLine} (nonempty : lines ≠ []) :
    joinedLines (Text.unlines (lines.map SourceLine.text)) = lines.map SourceLine.text := by
  have single : ∀ text ∈ lines.map SourceLine.text, '\n' ∉ text.toList := by
    intro text mem
    obtain ⟨line, _, rfl⟩ := List.mem_map.mp mem
    exact line.single
  rw [joinedLines, Text.lines_unlines (by simpa using nonempty) single, joinFrom_whole]

/-- The source of a block is kept as its lines are, also if it has none: then
the source is one empty line, which is kept. -/
theorem Block.run_source (block : Block) (table : MacroTable) :
    (run ⟨table, []⟩ (joinedLines block.source) >>= fun outcome =>
        pure (Text.unlines outcome.1, outcome.2)) =
      run ⟨table, []⟩ block.texts >>= fun outcome =>
        pure (Text.unlines outcome.1, outcome.2) := by
  by_cases empty : block.lines = []
  · have noText : block.texts = [] := by simp [Block.texts, empty]
    have emptyLine : joinedLines block.source = [""] := by
      rw [Block.source, noText]
      rfl
    have kept : step ⟨table, []⟩ "" = pure (true, ⟨table, []⟩) := rfl
    rw [emptyLine, noText, run_cons, kept]
    simp [run_nil]
  · rw [Block.source, Block.texts, joinedLines_unlines empty]

/-- Conditional compilation refines the tree interpreter: from the source of
every block and for all predefined macros, exactly the lines that the interpreter
selects are left, with the same macros in force at the end and the same warnings. -/
theorem resolve_block_source (predefined : List (String × String)) (block : Block) :
    resolve predefined block.source =
      block.select (MacroTable.ofPairs predefined) >>= fun selection =>
        pure (Text.unlines selection.texts, selection.table) := by
  have active : isActive ⟨MacroTable.ofPairs predefined, []⟩ = true := rfl
  have flat := block.run_source (MacroTable.ofPairs predefined)
  rw [block.run_active _ active] at flat
  calc resolve predefined block.source
      = (run ⟨MacroTable.ofPairs predefined, []⟩ (joinedLines block.source) >>= fun outcome =>
          pure (Text.unlines outcome.1, outcome.2)) >>= fun outcome =>
            Noted.noteIf (!outcome.2.groups.isEmpty)
              (.unterminatedGroups outcome.2.groups.length) >>= fun _ =>
                pure (outcome.1, outcome.2.table) := by
        simp [resolve]
    _ = _ := by
        rw [flat]
        simp [Noted.noteIf]

/-- The inner group lies in a branch that is not taken, so its definition is not made. -/
example :
    let dead : Block := .plain ⟨⟨"#define B", by decide, by decide⟩, by decide +kernel⟩
        (.group .undefined ⟨⟨"  # ifndef B", by decide, by decide⟩, "B", by decide +kernel⟩
          .nil (.close ⟨⟨"#endif", by decide, by decide⟩, "", by decide +kernel⟩) .nil)
    let block : Block :=
      .group .defined ⟨⟨"#ifdef A // off", by decide, by decide⟩, "A", by decide +kernel⟩ dead
        (.elseIf ⟨⟨"#elif !defined(B)", by decide, by decide⟩, "!defined(B)", by decide +kernel⟩
          (.plain ⟨⟨"x", by decide, by decide⟩, by decide +kernel⟩ .nil)
          (.close ⟨⟨"#endif", by decide, by decide⟩, "", by decide +kernel⟩)) .nil
    (resolve [] block.source).value = ("x", MacroTable.empty) := by
  decide +kernel

end WebShader.Conditional
