import WebShader.Proofs.Definition.Braces
import WebShader.Proofs.Emission.LineEnds
import WebShader.Proofs.Run
import WebShader.Proofs.Text.Lines

/-!
Contract: what becomes of the initial values that leave their declarations.

Owns: the moves of a stage, the cut of a source around its `main`, and the
place of every moved value in the emitted text.

A moved value is assigned in front of the body of `main` exactly if the body,
with its exit statements, does not hold the text of the assignment. The test is
one of text, so it also succeeds on an assignment to a longer name, or on one
that comes too late.
-/

namespace WebShader.Emission

open List Text

variable {main : Definition} {after before : Hoisted} {indent : Int} {globals : List GlobalVariable}
  {entry exit : List String} {options : Options} {program : StageProgram} {source text : String}

/-- An initial value that leaves the declaration of a global. -/
structure Move where
  target : GlobalVariable
  initializer : String

def Move.assignment (move : Move) : String :=
  move.target.name ++ " = " ++ trim move.initializer ++ ";"

/-- Taking the initial values of globals, one after another, out of a source. -/
inductive Hoists : String → List GlobalVariable → String → List Move → Prop where
  | done {source : String} : Hoists source [] source []
  | stays {source stripped : String} {target : GlobalVariable} {globals : List GlobalVariable}
      {moves : List Move}
      (unmoved : keepsInitializer target = true ∨ ∃ found,
        Declaration.replace? source target (target.bareDeclaration ++ "\n") = .ok found ∧
          found.bind Declaration.Replacement.initializer = none)
      (others : Hoists source globals stripped moves) :
      Hoists source (target :: globals) stripped moves
  | moves {source bare stripped initializer : String} {target : GlobalVariable}
      {globals : List GlobalVariable} {moves : List Move}
      (movable : keepsInitializer target = false)
      (found : Declaration.replace? source target (target.bareDeclaration ++ "\n") =
        .ok (some ⟨bare, some initializer⟩))
      (others : Hoists bare globals stripped moves) :
      Hoists source (target :: globals) stripped (⟨target, initializer⟩ :: moves)

theorem hoistOne_cases {target : GlobalVariable} (hoisted : hoistOne before target = .ok after) :
    (after = before ∧ (keepsInitializer target ∨ ∃ found,
      Declaration.replace? before.source target (target.bareDeclaration ++ "\n") = .ok found ∧
        found.bind Declaration.Replacement.initializer = none)) ∨
    (keepsInitializer target = false ∧ ∃ bare initializer,
      Declaration.replace? before.source target (target.bareDeclaration ++ "\n") =
        .ok (some ⟨bare, some initializer⟩) ∧
      after = ⟨bare, before.statements ++ [Move.assignment ⟨target, initializer⟩]⟩) := by
  unfold hoistOne at hoisted
  split at hoisted
  next kept =>
    cases hoisted
    exact .inl ⟨rfl, .inl kept⟩
  next movable =>
    cases replaced : Declaration.replace? before.source target (target.bareDeclaration ++ "\n") with
    | error fault =>
      rw [replaced] at hoisted
      cases hoisted
    | ok found =>
      rw [replaced] at hoisted
      match found with
      | none =>
        cases hoisted
        exact .inl ⟨rfl, .inr ⟨_, rfl, rfl⟩⟩
      | some ⟨bare, none⟩ =>
        cases hoisted
        exact .inl ⟨rfl, .inr ⟨_, rfl, rfl⟩⟩
      | some ⟨bare, some initializer⟩ =>
        cases hoisted
        exact .inr ⟨by simpa using movable, bare, initializer, rfl, rfl⟩

theorem foldlM_hoistOne (hoisted : globals.foldlM hoistOne before = .ok after) :
    ∃ moves, Hoists before.source globals after.source moves ∧
      after.statements = before.statements ++ moves.map Move.assignment := by
  induction globals generalizing before with
  | nil =>
    cases hoisted
    exact ⟨[], .done, by simp⟩
  | cons target others ih =>
    rw [foldlM_cons] at hoisted
    cases first : hoistOne before target with
    | error fault =>
      rw [first] at hoisted
      cases hoisted
    | ok next =>
      rw [first] at hoisted
      obtain ⟨moves, later, stmts⟩ := ih hoisted
      rcases hoistOne_cases first with ⟨rfl, unmoved⟩ | ⟨movable, bare, initializer, found, rfl⟩
      · exact ⟨moves, .stays unmoved later, stmts⟩
      · refine ⟨⟨target, initializer⟩ :: moves, .moves movable found later, ?_⟩
        rw [stmts, append_assoc]
        rfl

/-- The `main` that a scan of the source finds. -/
def main? (source : String) : Option Definition :=
  match Definition.ofSource source with
  | .ok definitions => Definition.function? definitions "main"
  | .error _ => none

/-- A source cut at the braces of a definition. -/
structure BodyCut (source : String) (definition : Definition) where
  before : String
  inside : String
  after : String
  whole : source = before ++ "\x7b" ++ inside ++ "\x7d" ++ after
  start : definition.bodyStart = (before ++ "\x7b").length
  stop : definition.bodyStop = (before ++ "\x7b" ++ inside).length

theorem main?_cut (found : main? source = some main) : Nonempty (BodyCut source main) := by
  unfold main? at found
  split at found
  next defns scanned =>
    obtain ⟨before, inside, after, whole, start, stop⟩ :=
      Definition.ofSource_cut scanned (mem_of_find?_eq_some found)
    exact ⟨⟨before, inside, after, whole, start, stop⟩⟩
  · cases found

theorem slice_middle (left middle right : String) :
    slice (left ++ middle ++ right) left.length (left ++ middle).length = middle := by
  simp [String.length_toList, slice]

theorem drop_left (left right : String) :
    String.ofList ((left ++ right).toList.drop left.length) = right := by
  rw [String.toList_append, ← String.length_toList, List.drop_left, String.ofList_toList]

theorem BodyCut.slices {defn : Definition} (cut : BodyCut source defn) :
    slice source 0 defn.bodyStart = cut.before ++ "\x7b" ∧
      slice source defn.bodyStart defn.bodyStop = cut.inside ∧
      String.ofList (source.toList.drop defn.bodyStop) = "\x7d" ++ cut.after := by
  obtain ⟨before, inside, after, rfl, start, stop⟩ := cut
  have opening := slice_middle "" (before ++ "\x7b") (inside ++ "\x7d" ++ after)
  have body := slice_middle (before ++ "\x7b") inside ("\x7d" ++ after)
  refine ⟨?_, ?_, ?_⟩
  · rw [start]
    simpa [String.append_assoc] using opening
  · grind
  · have ending : before ++ "\x7b" ++ inside ++ "\x7d" ++ after =
        before ++ "\x7b" ++ inside ++ ("\x7d" ++ after) := String.append_assoc
    show String.ofList ((before ++ "\x7b" ++ inside ++ "\x7d" ++ after).toList.drop
      defn.bodyStop) = "\x7d" ++ after
    rw [stop, ending, drop_left]

def statementLines (indent : String) (statements : List String) : String :=
  String.join (statements.map fun statement => "\n" ++ indent ++ statement)

theorem withEntries_eq (indent : String) (entries : List String) (body : String) :
    withEntries indent entries body = statementLines indent entries ++ body := by
  have lines : ∀ first others, "\n" ++ unlines ((first :: others).map (indent ++ ·)) =
      statementLines indent (first :: others) := by
    intro first others
    induction others generalizing first with
    | nil => simp [statementLines, String.append_assoc]
    | cons second rest ih => simp_all [unlines_cons, statementLines, String.append_assoc]
  cases entries with
  | nil => simp [withEntries, statementLines]
  | cons first others =>
    rw [← lines first others]
    rfl

def endedBody (indent : String) (exit : List String) (body : String) : String :=
  withExits indent (exit.filter fun statement => !holds body statement) body

theorem extendBody_eq (indent : String) (entry exit : List String) (body : String) :
    extendBody indent entry exit body =
      statementLines indent (missingStatements (endedBody indent exit body) entry) ++
        endedBody indent exit body :=
  withEntries_eq indent _ _

theorem mem_missingStatements {body stmt : String} {stmts : List String} :
    stmt ∈ missingStatements body stmts ↔ stmt ∈ stmts ∧ holds body stmt = false := by
  rw [missingStatements, mem_eraseDups]
  simp

theorem injectMain_cases (returned : (injectMain indent entry exit source).run.value = .ok text) :
    (entry = [] ∧ exit = [] ∧ text = source) ∨ (main? source = none ∧ text = source) ∨
      ∃ main, main? source = some main ∧ text = slice source 0 main.bodyStart ++
        extendBody (indentation indent) entry exit (slice source main.bodyStart main.bodyStop) ++
        String.ofList (source.toList.drop main.bodyStop) := by
  unfold injectMain at returned
  split at returned
  next empty => simp_all
  · obtain ⟨defns, scanned, rest⟩ := bind_value_ok returned
    have found : main? source = Definition.function? defns "main" := by
      rw [main?, lift_value_ok scanned]
    rw [found]
    split at rest
    next absent =>
      cases rest
      exact .inr (.inl ⟨absent, rfl⟩)
    simp_all

theorem injectMain_none (absent : main? source = none)
    (returned : (injectMain indent entry exit source).run.value = .ok text) : text = source := by
  grind [injectMain_cases]

theorem injectMain_some (found : main? source = some main) (cut : BodyCut source main)
    (returned : (injectMain indent entry exit source).run.value = .ok text) :
    text = cut.before ++ "\x7b" ++ extendBody (indentation indent) entry exit cut.inside ++
      "\x7d" ++ cut.after := by
  rcases injectMain_cases returned with ⟨rfl, rfl, rfl⟩ | ⟨absent, -⟩ | ⟨other, same, rfl⟩
  · exact cut.whole
  · rw [found] at absent
    cases absent
  · rw [found] at same
    obtain ⟨opening, body, ending⟩ := cut.slices
    grind

def stageBody (program : StageProgram) : String :=
  dropSharedLocations program.stage (dropHeaderLines program.source)

theorem emit_parts (emitted : (emit options indent globals program).run.value = .ok text) :
    ∃ stripped moves injected, Hoists (stageBody program) globals stripped moves ∧
      (injectMain indent (program.entry ++ moves.map Move.assignment) program.exit
        stripped).run.value = .ok injected ∧
      text = header options (extensionLines program.source) ++
        tidyLines (if options.modern then injected
          else (toLegacy program.stage injected).value) ++ "\n" := by
  obtain ⟨hoisted, hoisting, rest⟩ := bind_value_ok emitted
  obtain ⟨injected, injection, finished⟩ := bind_value_ok rest
  obtain ⟨moves, hoists, stmts⟩ := foldlM_hoistOne (lift_value_ok hoisting)
  rw [stmts] at injection
  refine ⟨hoisted.source, moves, injected, hoists, injection, ?_⟩
  cases modern : options.modern with
  | true => simp_all
  | false =>
    rw [if_neg (by simp [modern])] at finished
    cases finished
    rfl

theorem emit_cases (modern : options.modern)
    (emitted : (emit options indent globals program).run.value = .ok text) :
    ∃ stripped moves injected, Hoists (stageBody program) globals stripped moves ∧
      (injectMain indent (program.entry ++ moves.map Move.assignment) program.exit
        stripped).run.value = .ok injected ∧
      text = header options (extensionLines program.source) ++ tidyLines injected ++ "\n" := by
  obtain ⟨stripped, moves, injected, hoists, injection, final⟩ := emit_parts emitted
  grind

/-- Every member of a prologue stands in its lines, in front of the body. -/
theorem exists_squeezed_assignment (indent body : String) (move : Move) (earlier later : List String) :
    ∃ front, squeezed (statementLines indent (earlier ++ move.assignment :: later) ++ body) =
      front ++ squeezed move.assignment ++ squeezed (statementLines indent later ++ body) := by
  have shape : statementLines indent (earlier ++ move.assignment :: later) ++ body =
      statementLines indent earlier ++ "\n" ++ indent ++ move.assignment ++
        (statementLines indent later ++ body) := by
    simp [statementLines, String.append_assoc]
  rw [shape]
  exact exists_squeezed_statement _ _ _

/-- The initial values that an emitted stage moves. Without a `main` they are
lost. Otherwise the text has a prologue between the opening brace of `main` and
the first character of its body, and a moved value is assigned there exactly if
the body does not hold the text of the assignment. -/
theorem emit_assigns_moved_values {options : Options} {indent : Int}
    {globals : List GlobalVariable} {program : StageProgram} {text : String}
    (modern : options.modern = true)
    (emitted : (emit options indent globals program).run.value = .ok text) :
    ∃ stripped moves, Hoists (stageBody program) globals stripped moves ∧
      (main? stripped = none →
        text = header options (extensionLines program.source) ++ tidyLines stripped ++ "\n") ∧
      ∀ main, main? stripped = some main →
        ∃ (cut : BodyCut stripped main) (prologue : List String),
          let lines := statementLines (indentation indent)
          let body := endedBody (indentation indent) program.exit cut.inside
          text = header options (extensionLines program.source) ++
            (tidyOpening cut.before ++ "\x7b" ++ squeezed (lines prologue ++ body) ++ "\x7d" ++
              tidyEnding cut.after) ++ "\n" ∧
          ∀ move ∈ moves,
            (move.assignment ∈ prologue ↔ holds body move.assignment = false) ∧
            (move.assignment ∈ prologue → ∃ earlier later front,
              prologue = earlier ++ move.assignment :: later ∧
              squeezed (lines prologue ++ body) =
                front ++ squeezed move.assignment ++ squeezed (lines later ++ body)) := by
  obtain ⟨stripped, moves, injected, hoists, injection, rfl⟩ := emit_cases modern emitted
  refine ⟨stripped, moves, hoists, ?_, ?_⟩
  · intro absent
    rw [injectMain_none absent injection]
  · intro main found
    obtain ⟨cut⟩ := main?_cut found
    refine ⟨cut, missingStatements (endedBody (indentation indent) program.exit cut.inside)
      (program.entry ++ moves.map Move.assignment), ?_, ?_⟩
    · rw [injectMain_some found cut injection, extendBody_eq, tidyLines_braces]
    · intro move member
      refine ⟨?_, ?_⟩
      · grind [mem_missingStatements]
      · intro placed
        obtain ⟨earlier, later, shape⟩ := List.append_of_mem placed
        obtain ⟨front, squeezing⟩ := exists_squeezed_assignment (indentation indent)
          (endedBody (indentation indent) program.exit cut.inside) move earlier later
        grind

def accumulator : GlobalVariable :=
  ⟨"float", "acc", some "1.0", "", false, .stageLocal⟩

def amplifier : GlobalVariable :=
  ⟨"float", "gain", some "2.0", "", false, .stageLocal⟩

/-- A stage whose `main` assigns the initial value of `acc` to a longer name. -/
def shadowingProgram : StageProgram :=
  ⟨.vertex, "float acc = 1.0;\nfloat gain = 2.0;\nvoid main() \x7b lastacc = 1.0; \x7d", [], []⟩

/-- Only one of two moved values is assigned: the body holds the other assignment
as the end of a longer one. -/
theorem emit_assigns_moved_values_shadowed :
    (emit {} 4 [accumulator, amplifier] shadowingProgram).run.value =
        .ok ("#version 300 es\nprecision highp float;\nprecision highp int;\n\n" ++
          "float acc;\nfloat gain;\nvoid main() \x7b\n    gain = 2.0; lastacc = 1.0; \x7d\n") ∧
      ∃ stripped moves,
        Hoists (stageBody shadowingProgram) [accumulator, amplifier] stripped moves ∧
        ∀ main, main? stripped = some main →
          ∃ (cut : BodyCut stripped main) (prologue : List String),
            ∀ move ∈ moves, move.assignment ∈ prologue ↔
              holds (endedBody (indentation 4) [] cut.inside) move.assignment = false := by
  have emitted : (emit {} 4 [accumulator, amplifier] shadowingProgram).run.value =
      .ok ("#version 300 es\nprecision highp float;\nprecision highp int;\n\n" ++
        "float acc;\nfloat gain;\nvoid main() \x7b\n    gain = 2.0; lastacc = 1.0; \x7d\n") :=
    eq_ok_of_toOption (by decide +kernel)
  obtain ⟨stripped, moves, hoists, -, found⟩ := emit_assigns_moved_values rfl emitted
  refine ⟨emitted, stripped, moves, hoists, ?_⟩
  intro main present
  obtain ⟨cut, prologue, -, placed⟩ := found main present
  exact ⟨cut, prologue, fun move member => (placed move member).1⟩

end WebShader.Emission
