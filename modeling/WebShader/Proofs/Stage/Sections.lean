import Mathlib.Data.List.Basic
import WebShader.Stage.Split
import WebShader.Proofs.Assoc
import WebShader.Proofs.Include.Script

/-!
Contract: a divided source is told by the lines of its sections.

Owns: the lines that stand in the sections of a stage, read off the positions
of the stage lines, and the run that collects them.

The run keeps an open stage and files each line as it comes. The sections here
are said by position instead: a line belongs to the stage that the last stage
line in front of it names. So how the sections of one stage are spread over the
source does not matter.
-/

namespace WebShader.StageSplit

open List Text

variable {source : List String} {line name : String} {state : Sections} {stage : Option String}
  {keeps : String → Bool}

def stagesNamed (source : List String) : List String :=
  source.filterMap stageName?

/-- The stage whose section is open behind some lines. -/
def openStage? (source : List String) : Option String :=
  (stagesNamed source).getLast?

/-- The lines where a stage is open, or none is, without the stage lines. -/
def linesWhere (stage : Option String) (keeps : String → Bool) (source : List String) :
    List String :=
  source.zipIdx.filterMap fun entry =>
    if stageName? entry.1 = none ∧ openStage? (source.take entry.2) = stage ∧ keeps entry.1
    then some entry.1 else none

/-- The kept lines of a stage, if the source names it. -/
def sectionOf? (name : String) (source : List String) : Option (List String) :=
  if name ∈ stagesNamed source then some (linesWhere (some name) keepsStageLine source) else none

def preambleLines (source : List String) : List String :=
  linesWhere none keepsPreambleLine source

/-! One more line. -/

theorem stagesNamed_concat (source : List String) (line : String) :
    stagesNamed (source ++ [line]) = stagesNamed source ++ (stageName? line).toList := by
  cases stageName : stageName? line <;> simp [stagesNamed, stageName]

theorem openStage?_concat (source : List String) (line : String) :
    openStage? (source ++ [line]) = (stageName? line).or (openStage? source) := by
  rw [openStage?, stagesNamed_concat]
  cases stageName? line <;> simp [openStage?]

theorem linesWhere_concat (stage : Option String) (keeps : String → Bool) (source : List String)
    (line : String) :
    linesWhere stage keeps (source ++ [line]) = linesWhere stage keeps source ++
      if stageName? line = none ∧ openStage? source = stage ∧ keeps line then [line] else [] := by
  rw [linesWhere, zipIdx_append, filterMap_append]
  congr 1
  · refine filterMap_congr fun entry present => ?_
    rw [take_append_of_le_length (Nat.le_of_lt (by simpa using snd_lt_of_mem_zipIdx present))]
  · split <;> grind

theorem linesWhere_eq_nil (unnamed : name ∉ stagesNamed source) :
    linesWhere (some name) keeps source = [] := by
  refine filterMap_eq_nil_iff.mpr fun entry present => if_neg fun kept => unnamed ?_
  exact ((take_sublist entry.2 source).filterMap stageName?).subset (mem_of_getLast? kept.2.1)

/-! The run over the lines. -/

/-- What the run has collected from some lines. -/
structure Collects (source : List String) (state : Sections) : Prop where
  current : state.current = openStage? source
  preamble : state.preamble = preambleLines source
  bodies : ∀ name, state.bodies.lookup name = sectionOf? name source

theorem startSection_value (state : Sections) (name : String) :
    (startSection state name).value =
      { state with
        bodies := if state.bodies.lookup name = none then state.bodies ++ [(name, [])]
          else state.bodies
        current := some name } := by
  rw [startSection]
  split
  next known =>
    rw [if_neg (by simp [known])]
    rfl
  next unknown =>
    rw [if_pos unknown]
    rfl

theorem Collects.startSection (collects : Collects source state)
    (names : stageName? line = some name) :
    Collects (source ++ [line]) (startSection state name).value := by
  have unfiled (stage : Option String) (keeps : String → Bool) :
      linesWhere stage keeps (source ++ [line]) = linesWhere stage keeps source := by
    rw [linesWhere_concat, if_neg (by simp [names]), append_nil]
  rw [startSection_value]
  refine ⟨?_, collects.preamble.trans (unfiled _ _).symm, fun other => ?_⟩
  · rw [openStage?_concat, names, Option.some_or]
  · have here := collects.bodies other
    have known := collects.bodies name
    have empty := @linesWhere_eq_nil source name keepsStageLine
    rw [sectionOf?, stagesNamed_concat]
    simp only [sectionOf?] at here known
    by_cases same : other = name
    · split <;> grind
    · split <;> grind

theorem Collects.addLine (collects : Collects source state) (line : String) :
    Collects (source ++ [line]) (addLine state line).value := by
  cases names : stageName? line with
  | some name =>
    rw [StageSplit.addLine, names]
    exact collects.startSection names
  | none =>
    have opened : openStage? (source ++ [line]) = state.current := by
      rw [openStage?_concat, names, Option.none_or, collects.current]
    have named : stagesNamed (source ++ [line]) = stagesNamed source := by
      rw [stagesNamed_concat, names, Option.toList_none, append_nil]
    have filed (stage : Option String) (keeps : String → Bool) :
        linesWhere stage keeps (source ++ [line]) = linesWhere stage keeps source ++
          if state.current = stage ∧ keeps line then [line] else [] := by
      rw [linesWhere_concat, collects.current]
      simp only [names, true_and]
    have unfiled (name : String) (closed : state.current ≠ some name ∨ keepsStageLine line = false) :
        sectionOf? name (source ++ [line]) = state.bodies.lookup name := by
      have shut : ¬ (state.current = some name ∧ keepsStageLine line) := by grind
      rw [collects.bodies, sectionOf?, sectionOf?, named, filed, if_neg shut, append_nil]
    rw [StageSplit.addLine, names]
    cases current : state.current with
    | none =>
      have preamble : preambleLines (source ++ [line]) =
          state.preamble ++ if keepsPreambleLine line then [line] else [] := by
        rw [collects.preamble, preambleLines, filed, preambleLines]
        simp only [current, true_and]
      have bodies (name : String) : state.bodies.lookup name = sectionOf? name (source ++ [line]) :=
        (unfiled name (.inl (by simp [current]))).symm
      cases kept : keepsPreambleLine line with
      | true => exact ⟨(opened.trans current).symm, by simp [preamble, kept], bodies⟩
      | false => exact ⟨opened.symm, by simp [preamble, kept], bodies⟩
    | some name =>
      have preamble : state.preamble = preambleLines (source ++ [line]) := by
        rw [collects.preamble, preambleLines, preambleLines, filed, if_neg (by simp [current]),
          append_nil]
      cases kept : keepsStageLine line with
      | true =>
        refine ⟨(opened.trans current).symm, preamble, fun other => ?_⟩
        show (Assoc.put name _ state.bodies).lookup other = _
        rw [Assoc.lookup_put]
        split
        next same =>
          obtain rfl : other = name := by simpa using same
          have present : other ∈ stagesNamed source :=
            mem_of_getLast? (collects.current.symm.trans current)
          rw [collects.bodies, sectionOf?, sectionOf?, named, if_pos present, if_pos present, filed,
            if_pos ⟨current, kept⟩]
          rfl
        next differs => exact (unfiled other (.inl (by grind))).symm
      | false =>
        exact ⟨opened.symm, preamble, fun other => (unfiled other (.inr kept)).symm⟩

theorem collects_foldlM (rest : List String) (collects : Collects source state) :
    Collects (source ++ rest) (rest.foldlM addLine state : Noted Sections).value := by
  induction rest generalizing source state with
  | nil => simpa using collects
  | cons line others ih =>
    simpa using ih (collects.addLine line)

/-- What a source is divided into, from its kept preamble and the lines of its stages. -/
def ofSections (options : Options) (preamble : List String)
    (sections : String → Option (List String)) : Except Fault StageSplit :=
  match sections "fragment" with
  | none => .error (.missingFragmentStage "Shader has no '#pragma stage fragment' section" .unknown)
  | some fragment =>
    .ok {
      preamble := unlines preamble
      vertex := ((sections "vertex").map unlines).getD (defaultVertex options)
      synthesized := (sections "vertex").isNone
      fragment := unlines fragment }

theorem lift_bind_value {α β : Type} (first : Noted α) (next : α → ExceptT Fault Noted β) :
    ((liftM first : ExceptT Fault Noted α) >>= next).run.value = (next first.value).run.value := rfl

theorem ofSource_value (options : Options) (source : String) :
    (ofSource options source).run.value =
      ofSections options (preambleLines (lines source)) (sectionOf? · (lines source)) := by
  have collects := @collects_foldlM [] ⟨[], [], none⟩ (lines source) ⟨rfl, rfl, fun _ => rfl⟩
  rw [nil_append] at collects
  rw [ofSections, ← collects.preamble, ← collects.bodies, ← collects.bodies, ofSource]
  generalize (lines source).foldlM addLine ⟨[], [], none⟩ = run
  rw [lift_bind_value]
  cases run.value.bodies.lookup "fragment" <;> rfl

/-- A stage line names its stage in any letter case. -/
theorem stageName?_written {word : String} (present : word ≠ "") (inside : word.toList.all isWord) :
    stageName? ("#pragma stage " ++ word) = some (lower word) := by
  have solid : word.toList.head?.any isBlank = false := by
    cases shape : word.toList with
    | nil => rfl
    | cons c rest => exact Include.isBlank_of_isWord (all_eq_true.mp inside c (by simp [shape]))
  have named : Reader.word.read? (word.toList ++ []) = some (word, []) := by
    rw [Reader.word, Reader.read?_someRun (by simpa using present) (all_eq_true.mp inside) rfl,
      String.ofList_toList]
  have line : ("#pragma stage " ++ word).toList =
      "#pragma".toList ++ ([' '] ++ ("stage".toList ++ ([' '] ++ word.toList))) := by simp
  have opens (rest : List Char) : pragma.read? ("#pragma".toList ++ rest) = some ((), rest) := rfl
  have blank {rest : List Char} (solid : rest.head?.any isBlank = false) :
      Reader.someBlanks.read? ([' '] ++ rest) = some ((), rest) :=
    Reader.read?_someBlanks (cons_ne_nil ' ' []) (forall_mem_singleton.mpr rfl) solid
  have parted : ("stage".toList ++ ([' '] ++ word.toList)).head?.any isBlank = false := rfl
  rw [append_nil] at named
  simp only [stageName?, Reader.read?_bind, line, opens, blank parted, Reader.read?_literal,
    blank solid, named, Option.bind_some, Option.map_some]

/-- A divided source is told by its kept preamble and, stage by stage, by the lines that stand behind
a line naming the stage and in front of the next stage line. Sources that agree in these are divided
alike, however their sections are spread. -/
theorem ofSource_told_by_sections (options : Options) (source : String) :
    (ofSource options source).run.value =
        ofSections options (preambleLines (lines source)) (sectionOf? · (lines source)) ∧
      ((∃ text place, (ofSource options source).run.value =
          .error (.missingFragmentStage text place)) ↔
        "fragment" ∉ stagesNamed (lines source)) ∧
      (∀ other, preambleLines (lines other) = preambleLines (lines source) →
        (∀ name, sectionOf? name (lines other) = sectionOf? name (lines source)) →
        (ofSource options other).run.value = (ofSource options source).run.value) ∧
      ∀ word, word ≠ "" → word.toList.all isWord →
        stageName? ("#pragma stage " ++ word) = some (lower word) := by
  refine ⟨ofSource_value options source, ?_, fun other preamble sections => ?_,
    fun _ => stageName?_written⟩
  · rw [ofSource_value, ofSections, sectionOf?]
    split <;> simp_all
  · rw [ofSource_value, ofSource_value, preamble, funext sections]

/-- Two fragment sections around a vertex section, or one behind it. -/
theorem ofSource_told_by_sections_interleaved :
    (ofSource {} ("#pragma stage Fragment\na\n#pragma stage vertex\nb\n" ++
        "#pragma stage fragment\nc")).run.value =
      (ofSource {} "#pragma stage vertex\nb\n#pragma stage fragment\na\nc").run.value ∧
    stageName? ("#pragma stage " ++ "FRAGMENT") = some (lower "FRAGMENT") := by
  obtain ⟨-, -, alike, named⟩ :=
    ofSource_told_by_sections {} "#pragma stage vertex\nb\n#pragma stage fragment\na\nc"
  refine ⟨alike _ (by decide +kernel) fun name => ?_, named _ (by decide) (by decide +kernel)⟩
  by_cases fragment : name = "fragment"
  · subst fragment
    decide +kernel
  by_cases vertex : name = "vertex"
  · subst vertex
    decide +kernel
  rw [sectionOf?, sectionOf?, if_neg, if_neg]
  · rw [show stagesNamed _ = ["vertex", "fragment"] by decide +kernel]
    simp [fragment, vertex]
  · rw [show stagesNamed _ = ["fragment", "vertex", "fragment"] by decide +kernel]
    simp [fragment, vertex]

end WebShader.StageSplit
