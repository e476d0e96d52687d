import Mathlib.Data.List.Basic
import WebShader.Proofs.Definition.Layout

/-!
Contract: a preamble that stands twice in a source.

Owns: the second copy of a file, and what it adds to the preamble of the first.

The second copy is read behind what the first one leaves unfinished: the words
in front of a structure are code outside all definitions, and no semicolon ends
them.
-/

namespace WebShader.Token

open List

/-- The text of settled lexemes ends with its line. -/
theorem Splits.ends_of_settled {text : List Char} {pieces : List Lexeme}
    (splits : Splits text pieces) (isSettled : settled pieces) :
    text.getLast?.all (· == '\n') := by
  rw [← splits.text_eq]
  rcases eq_nil_or_concat pieces with rfl | ⟨front, piece, rfl⟩
  · rfl
  have kind : piece.kind = .newline := by simpa [settled] using isSettled
  have alone : Splits piece.text [piece] := splits.singleton (by simp)
  obtain ⟨rest, -, leads, -⟩ := alone.cons_inv
  rw [kind] at leads
  have measured : newline? piece.text = some piece.text.length :=
    measureOf_frontToken (frontToken_alone leads) (by decide)
  rcases newline?_cases measured with ⟨tail, shape, length⟩ | ⟨tail, shape, length⟩
  all_goals
    grind

end WebShader.Token

namespace WebShader.Preamble

open List Token Definition

/-! Two copies of a file. -/

def statementsOf (items : List Item) : List (List Token) :=
  statementsFrom 0 [] (visibleFrom 0 items)

/-- The code of a file behind its last statement. -/
def trailing (items : List Item) : List Token :=
  unfinished 0 [] (visibleFrom 0 items)

/-- The statement that begins behind the last statement of a file and ends in a second copy. -/
def straddling? (text : String) (items : List Item) : Option (List Token) :=
  if (trailing items).isEmpty then none
  else (statementsOf items).head?.map fun first => trailing items ++ first.map (shift text.length)

theorem straddling?_whole {text : String} {items : List Item} (whole : trailing items = []) :
    straddling? text items = none := by
  rw [straddling?, whole]
  rfl

theorem straddling?_nil {text : String} {items : List Item} (none : statementsOf items = []) :
    straddling? text items = Option.none := by
  rw [straddling?, none]
  split <;> rfl

theorem straddling?_cons {text : String} {items : List Item} (left : trailing items ≠ [])
    {first : List Token} {rest : List (List Token)} (shape : statementsOf items = first :: rest) :
    straddling? text items = some (trailing items ++ first.map (shift text.length)) := by
  simp_all [straddling?]

section Copies

variable {text : String} {items : List Item} (file : IsFile text items)
include file

theorem inside_file {stmt : List Token} (listed : stmt ∈ statementsOf items) :
    Inside text.length stmt := by
  intro token mem
  rcases mem_of_mem_statementsFrom listed mem with none | visible
  · cases none
  · have bounded := stop_of_mem_place (mem_piecesOf_of_visible visible)
    rwa [Nat.zero_add, width_file file] at bounded

theorem isFile_twice (isSettled : settled (piecesOf items)) :
    IsFile (text ++ text) (items ++ items) := by
  rw [IsFile, String.toList_append, lexemes_append (by rwa [file]), file, piecesOf_append]

theorem statementsOf_twice :
    statementsOf (items ++ items) = statementsOf items ++
      continuing (trailing items) ((statementsOf items).map (List.map (shift text.length))) := by
  rw [statementsOf, visibleFrom_append, visibleFrom_shift, width_file file, statementsFrom_append,
    visibleFrom_depth]
  have begun := statementsFrom_part 0 [] (trailing items)
    ((visibleFrom 0 items).map (shift text.length))
  rw [nil_append] at begun
  have moved := statementsFrom_shift text.length 0 [] (visibleFrom 0 items)
  rw [map_nil] at moved
  rw [← trailing, begun, moved, ← statementsOf]

theorem startOf_twice (isSettled : settled (piecesOf items)) :
    startOf (text ++ text) (definitionsFrom 0 (items ++ items)) (macrosOf (lex (text ++ text))).value =
      startOf text (definitionsFrom 0 items) (macrosOf (lex text)).value := by
  have signs : (definitionsFrom (0 + width (piecesOf items)) items).map signature ⊆
      (definitionsFrom 0 items).map signature := by
    rw [map_signature_definitionsFrom items _ 0]
    exact List.Subset.refl _
  have cut {defn : Definition} (listed : defn ∈ firstOfEach (definitionsFrom 0 items)) :
      Text.slice (text ++ text) defn.start defn.stop = Text.slice text defn.start defn.stop := by
    have bounded := (definitionsFrom_within items 0 defn (mem_of_mem_firstOfEach listed)).2
    rw [Nat.zero_add, width_file file] at bounded
    simpa using slice_inside "" text text bounded
  have macros : (macrosOf (lex (text ++ text))).value =
      (macrosOf (lex text)).value ++ (macrosOf (lex text)).value := by
    have whole : (lex text).getLast?.all (·.kind == .newline) := by
      rw [settled, ← lexeme_place 0 (piecesOf items), ← lex_file file, getLast?_map] at isSettled
      cases last : (lex text).getLast? with
      | none => rfl
      | some token =>
        rw [last] at isSettled
        exact isSettled
    rw [lex_file (isFile_twice file isSettled), piecesOf_append, place_parts,
      place_shift, ← lex_file file, macrosOf_append whole, macrosOf_shift]
  rw [startOf, startOf, definitionsFrom_append, firstOfEach_append signs, macros, Assoc.putAll_twice]
  grind [filterMap_congr, functionOf?, structOf?]

/-- The first copy of a file is read as the file alone. -/
theorem readAll_front (claimed : List String) (start : Preamble) (back : String) :
    readAll (text ++ back) claimed (statementsOf items) start =
      readAll text claimed (statementsOf items) start := by
  have same : ∀ stmt ∈ statementsOf items,
      declaration? (text ++ back) (id stmt) = declaration? text stmt := by
    intro stmt listed
    have placed := declaration?_inside "" text back (inside_file file listed)
    have still : stmt.map (shift "".length) = stmt := map_id'' (fun _ => rfl) stmt
    rwa [still] at placed
  have copied : readAll (text ++ back) claimed ((statementsOf items).map id) start = _ :=
    readAll_congr same start
  rwa [map_id] at copied

/-- Statements of a second copy add nothing to what the first copy has grown to. -/
theorem readAll_behind {claimed : List String} {start preamble : Preamble}
    (grown : Grows (readAll text claimed (statementsOf items) start) preamble)
    {others : List (List Token)} (some : others ⊆ statementsOf items) :
    readAll (text ++ text) claimed (others.map (List.map (shift text.length))) preamble =
      preamble := by
  refine readAll_known fun stmt mem decl declared => ?_
  obtain ⟨original, listed, rfl⟩ := mem_map.mp mem
  have placed := declaration?_inside text text "" (inside_file file (some listed))
  rw [String.append_empty] at placed
  rw [placed] at declared
  exact ((readAll_grows (statementsOf items) start).2 original (some listed) decl
    declared).grows grown

/-- A second copy of a file adds the statement that begins in the first copy, and nothing else. -/
theorem readAll_twice (claimed : List String) (start : Preamble) :
    readAll (text ++ text) claimed (statementsOf (items ++ items)) start =
      readAll (text ++ text) claimed (straddling? text items).toList
        (readAll text claimed (statementsOf items) start) := by
  rw [statementsOf_twice file, readAll_append, readAll_front file]
  by_cases left : trailing items = []
  · have whole : ∀ stmts, continuing (trailing items) stmts = stmts := by
      rintro (_ | ⟨first, rest⟩)
      · rfl
      · rw [left, continuing, nil_append]
    rw [straddling?_whole left, whole, readAll_behind file (.refl _) (List.Subset.refl _),
      Option.toList_none, readAll_nil]
  · cases shape : statementsOf items with
    | nil =>
      rw [straddling?_nil shape, Option.toList_none, map_nil, continuing]
    | cons first rest =>
      have others : rest ⊆ statementsOf items := by
        rw [shape]
        exact subset_cons_self _ _
      rw [straddling?_cons left shape, map_cons, continuing, ← shape,
        ← singleton_append, readAll_append]
      exact readAll_behind file (readAll_grows _ _).1 others

end Copies

/-! Files whose items end their statements. -/

theorem trailing_closing {items : List Item} (closes : ∀ item ∈ items, item.Closes) :
    trailing items = [] := by
  suffices all : ∀ offset, unfinished 0 [] (visibleFrom offset items) = [] from all 0
  induction items with
  | nil => exact fun _ => rfl
  | cons item rest ih =>
    intro offset
    rw [visibleFrom, unfinished_append, unfinished_closing (closes item mem_cons_self),
      item.visible_depth]
    exact ih (forall_mem_cons.mp closes).2 _

/-- A file that stands twice before the first stage defines the functions, structures and macros
that it defines once. The constants and globals are those of the first copy and, behind them, those
of the one statement that begins in the first copy and ends in the second; a file whose items end
their statements has no such statement, and the second copy adds nothing. -/
theorem ofSource_repeated {text rest : String} {items : List Item} (file : IsFile text items)
    (isSettled : settled (piecesOf items) = true) (noStage : textOf? text = none)
    (opens : (stagePragma.read? rest.toList).isSome = true) (clear : BindingsClear text)
    (clearTwice : BindingsClear (text ++ text)) (claimed : List String) :
    ∃ once twice, (ofSource (text ++ rest) claimed).run.value = .ok once ∧
      (ofSource (text ++ text ++ rest) claimed).run.value = .ok twice ∧
      twice = readAll (text ++ text) claimed (straddling? text items).toList once ∧
      Grows once twice ∧ ((∀ item ∈ items, item.Closes) → twice = once) := by
  have ends : text.toList.getLast?.all (· == '\n') = true :=
    (splits_lexemes text.toList).ends_of_settled (by rwa [file])
  have endsTwice : (text ++ text).toList.getLast?.all (· == '\n') = true := by
    rw [String.toList_append, List.getLast?_append, Option.or_self]
    exact ends
  have once := ofSource_file (textOf?_append noStage ends opens) file clear claimed
  have twice := ofSource_file (textOf?_append (textOf?_lines noStage ends noStage) endsTwice opens)
    (isFile_twice file isSettled) clearTwice claimed
  rw [startOf_twice file isSettled, ← statementsOf, readAll_twice file] at twice
  rw [← statementsOf] at once
  refine ⟨_, _, once, twice, rfl, (readAll_grows _ _).1, fun closes => ?_⟩
  rw [straddling?_whole (trailing_closing closes), Option.toList_none, readAll_nil]

/-! A structure with a qualifier in front of it. -/

/-- A global, and behind it a constant of a structure that is defined in its declaration. -/
def qualifiedText : String :=
  "float b;\nconst struct S \x7b float a; \x7d s = S(1.0);\n"

def floatStatement : List Lexeme :=
  [word "float", blank, word "b", punct ';']

theorem quiet_floatStatement : Quiet true floatStatement := by
  have ends : Quiet false [punct ';'] := .plain (by decide) (by decide) (by decide +kernel) .nil
  have named : Quiet false ([blank] ++ [word "b", punct ';']) :=
    .gap (by decide) (.plain (by decide) (by decide) (by decide +kernel) ends)
  exact .plain (by decide) (by decide) (by decide +kernel) named

def qualifiedStruct : StructItem where
  lead := [word "const", blank]
  qualifiers := ["const"]
  head := [word "struct", blank, word "S", blank]
  name := "S"
  body := [blank, word "float", blank, word "a", punct ';', blank]
  tail := [blank, word "s", blank, punct '=', blank, word "S", punct '(', ⟨.number, "1.0".toList⟩,
    punct ')']
  leads := by decide
  leadEnds := by decide
  names := by decide +kernel
  plain := by decide
  isHead := ⟨by decide, by decide, by decide⟩
  nestedBody := nested_plain (by decide) false
  isTail := ⟨by decide, by decide⟩

def qualifiedItems : List Item :=
  [.statement floatStatement quiet_floatStatement (nested_plain (by decide) false),
    .gap [lineFeed] (by decide), .struct qualifiedStruct, .gap [lineFeed] (by decide)]

theorem isFile_qualified : IsFile qualifiedText qualifiedItems := by
  unfold IsFile
  decide +kernel

theorem constNames_qualified :
    (ofSource (qualifiedText ++ "#pragma stage fragment\n") []).run.value.toOption.map constNames =
        some [] ∧
      (ofSource (qualifiedText ++ qualifiedText ++ "#pragma stage fragment\n")
        []).run.value.toOption.map constNames = some ["b"] := by
  decide +kernel

/-- The word in front of the structure takes the global of the second copy for a constant. -/
theorem ofSource_repeated_qualified :
    ∃ once twice,
      (ofSource (qualifiedText ++ "#pragma stage fragment\n") []).run.value = .ok once ∧
      (ofSource (qualifiedText ++ qualifiedText ++ "#pragma stage fragment\n") []).run.value =
        .ok twice ∧
      twice = readAll (qualifiedText ++ qualifiedText) []
        (straddling? qualifiedText qualifiedItems).toList once ∧
      Grows once twice ∧ once.constNames = [] ∧ twice.constNames = ["b"] := by
  have opens : (stagePragma.read? "#pragma stage fragment\n".toList).isSome = true := by
    decide +kernel
  obtain ⟨once, twice, first, second, joined, grows, -⟩ :=
    ofSource_repeated isFile_qualified (by decide +kernel) (by decide +kernel) opens
      (bindingsClear_of_none (by decide +kernel)) (bindingsClear_of_none (by decide +kernel)) []
  obtain ⟨onceNames, twiceNames⟩ := constNames_qualified
  rw [first] at onceNames
  rw [second] at twiceNames
  exact ⟨once, twice, first, second, joined, grows, Option.some.inj onceNames,
    Option.some.inj twiceNames⟩

end WebShader.Preamble
