import WebShader.Proofs.Assoc
import WebShader.Proofs.Definition.Boundary
import WebShader.Proofs.Definition.Statements

/-!
Contract: the preamble of a file that is a sequence of complete items.

Owns: extraction as one pass over the statements outside the definitions.
-/

namespace WebShader.Preamble

open List Token Definition

variable {definition : Definition} {definitions kept : List Definition} {items : List Item}

/-- Reads statements one after another. -/
def readAll (source : String) (claimed : List String) (statements : List (List Token))
    (start : Preamble) : Preamble :=
  statements.foldl (fun preamble statement => (addStatement source claimed preamble statement).value)
    start

section ReadAll

variable {source : String} {claimed : List String}

theorem readAll_nil (start : Preamble) : readAll source claimed [] start = start :=
  foldl_nil

theorem readAll_append (statements others : List (List Token)) (start : Preamble) :
    readAll source claimed (statements ++ others) start =
      readAll source claimed others (readAll source claimed statements start) :=
  foldl_append

/-- Statements read one after another leave a preamble that knows what they declare. -/
theorem readAll_grows (statements : List (List Token)) (start : Preamble) :
    Grows start (readAll source claimed statements start) ∧
      ∀ statement ∈ statements, ∀ declaration, declaration? source statement = some declaration →
        Knows claimed declaration (readAll source claimed statements start) := by
  induction statements generalizing start with
  | nil => exact ⟨.refl _, by simp⟩
  | cons statement rest ih =>
    obtain ⟨first, here⟩ := addStatement_grows source claimed statement start
    obtain ⟨later, there⟩ := ih (addStatement source claimed start statement).value
    refine ⟨first.trans later, fun other mem declaration declared => ?_⟩
    rcases mem_cons.mp mem with rfl | inRest
    · exact (here declaration declared).grows later
    · exact there other inRest declaration declared

/-- Statements whose names are known add nothing. -/
theorem readAll_known {statements : List (List Token)} {preamble : Preamble}
    (knows : ∀ statement ∈ statements, ∀ declaration,
      declaration? source statement = some declaration → Knows claimed declaration preamble) :
    readAll source claimed statements preamble = preamble := by
  induction statements with
  | nil => rfl
  | cons statement rest ih =>
    rw [readAll, foldl_cons, addStatement_known (knows statement mem_cons_self)]
    exact ih (forall_mem_cons.mp knows).2

/-- Statements that declare the same are read alike. -/
theorem readAll_congr {other : String} {move : List Token → List Token}
    {statements : List (List Token)}
    (same : ∀ statement ∈ statements,
      declaration? other (move statement) = declaration? source statement) (start : Preamble) :
    readAll other claimed (statements.map move) start = readAll source claimed statements start := by
  induction statements generalizing start with
  | nil => rw [map_nil, readAll_nil, readAll_nil]
  | cons statement rest ih => simp_all [addStatement, readAll]

end ReadAll

/-! Extraction as one pass. -/

/-- What is known before the first statement is read. -/
def startOf (text : String) (definitions : List Definition) (macros : List MacroDefinition) :
    Preamble :=
  { functions := (firstOfEach definitions).filterMap (functionOf? text)
    structs := (firstOfEach definitions).filterMap (structOf? text)
    macros := Assoc.putAll MacroDefinition.name macros []
    consts := []
    globals := [] }

theorem foldlM_lift_value {α β : Type} (step : β → α → Noted β) (items : List α) (start : β) :
    (items.foldlM (fun state item => (liftM (step state item) : ExceptT Fault Noted β)) start).run.value =
      .ok (items.foldl (fun state item => (step state item).value) start) := by
  induction items generalizing start with
  | nil => rfl
  | cons item rest ih =>
    exact ih _

theorem ofSource_value {source text : String} (cut : textOf? source = some text)
    (scanned : Definition.scan (lex text) = .ok definitions) (claimed : List String) :
    (ofSource source claimed).run.value = .ok (readAll text claimed
        (statements (lex text) (masksOf definitions (Binding.table text).value))
        (startOf text definitions (macrosOf (lex text)).value)) := by
  rw [ofSource, cut]
  simp only [scanned]
  exact foldlM_lift_value (addStatement text claimed) _ _

/-! Definitions. -/

def keep (kept : List Definition) (definition : Definition) : List Definition :=
  if (kept.map signature).contains (signature definition) then kept else kept ++ [definition]

theorem firstOfEach_eq (definitions : List Definition) :
    firstOfEach definitions = definitions.foldl keep [] := rfl

theorem keep_known (known : signature definition ∈ kept.map signature) :
    keep kept definition = kept := by
  rw [keep, if_pos (contains_iff_mem.mpr known)]

theorem keep_new (new : signature definition ∉ kept.map signature) :
    keep kept definition = kept ++ [definition] := by
  rw [keep, if_neg fun listed => new (contains_iff_mem.mp listed)]

theorem keep_prefix (kept : List Definition) (definition : Definition) :
    kept <+: keep kept definition ∧ signature definition ∈ (keep kept definition).map signature := by
  grind [keep_known, keep_new]

theorem foldl_keep_behind (kept definitions : List Definition) :
    kept <+: definitions.foldl keep kept ∧
      definitions.map signature ⊆ (definitions.foldl keep kept).map signature := by
  induction definitions generalizing kept with
  | nil => exact ⟨List.prefix_refl _, by simp⟩
  | cons definition rest ih =>
    obtain ⟨first, here⟩ := keep_prefix kept definition
    grind

theorem foldl_keep_known (known : definitions.map signature ⊆ kept.map signature) :
    definitions.foldl keep kept = kept := by
  induction definitions with
  | nil => rfl
  | cons definition rest ih =>
    rw [foldl_cons, keep_known (known mem_cons_self)]
    exact ih fun sign mem => known (mem_cons_of_mem _ mem)

/-- Definitions whose signatures are there already are left out. -/
theorem firstOfEach_append {others : List Definition}
    (repeated : others.map signature ⊆ definitions.map signature) :
    firstOfEach (definitions ++ others) = firstOfEach definitions := by
  grind [firstOfEach_eq, foldl_keep_known, foldl_keep_behind]

theorem mem_of_mem_foldl_keep (mem : definition ∈ definitions.foldl keep kept) :
    definition ∈ kept ∨ definition ∈ definitions := by
  induction definitions generalizing kept with
  | nil => exact .inl mem
  | cons first rest ih =>
    rcases ih mem with inKept | inRest
    · rw [keep] at inKept
      split at inKept
      · exact .inl inKept
      · rcases mem_append.mp inKept with earlier | here
        · exact .inl earlier
        · exact .inr (mem_singleton.mp here ▸ mem_cons_self)
    · exact .inr (mem_cons_of_mem _ inRest)

theorem mem_of_mem_firstOfEach (mem : definition ∈ firstOfEach definitions) :
    definition ∈ definitions := by
  rcases mem_of_mem_foldl_keep mem with none | listed
  · cases none
  · exact listed

/-! Macros. -/

/-- The macro that a token and those behind it define. -/
def macroAt? (token : Token) (rest : List Token) : Option MacroDefinition :=
  if token.kind == .directive && Token.directiveName token == "define" then
    (macroBody.read? (joinContinued (defineText rest).toList)).map (·.1)
  else none

theorem macrosOf_cons (token : Token) (rest : List Token) :
    (macrosOf (token :: rest)).value = (macroAt? token rest).toList ++ (macrosOf rest).value := by
  rw [macrosOf, macroAt?]
  split
  · dsimp only
    cases macroBody.read? (joinContinued (defineText rest).toList) with
    | none => rfl
    | some found => rfl
  · rfl

theorem defineText_append {tokens : List Token} (present : tokens ≠ [])
    (whole : tokens.getLast?.all (·.kind == .newline)) (others : List Token) :
    defineText (tokens ++ others) = defineText tokens := by
  rw [getLast?_eq_some_getLast present, Option.all_some, beq_iff_eq] at whole
  have stops : ¬ (tokens.takeWhile (·.kind != .newline)).length = tokens.length := by
    intro all
    have same := (takeWhile_sublist (fun token : Token => token.kind != .newline)).eq_of_length all
    have passes : tokens.all (·.kind != .newline) := by
      rw [← same]
      exact all_takeWhile
    have last := all_eq_true.mp passes _ (getLast_mem present)
    simp [whole] at last
  rw [defineText, defineText, takeWhile_append, if_neg stops]

theorem macroAt?_append {token : Token} {rest others : List Token}
    (whole : (token :: rest).getLast?.all (·.kind == .newline)) :
    macroAt? token (rest ++ others) = macroAt? token rest := by
  cases rest with
  | nil => grind [macroAt?]
  | cons second more =>
    rw [macroAt?, macroAt?, defineText_append (cons_ne_nil second more) whole]

/-- The macros of whole lines are those in front, then those behind. -/
theorem macrosOf_append {tokens : List Token}
    (whole : tokens.getLast?.all (·.kind == .newline)) (others : List Token) :
    (macrosOf (tokens ++ others)).value = (macrosOf tokens).value ++ (macrosOf others).value := by
  induction tokens with
  | nil => rfl
  | cons token rest ih =>
    have later : rest.getLast?.all (·.kind == .newline) := by
      cases rest with
      | nil => rfl
      | cons second more => rwa [getLast?_cons_cons] at whole
    rw [cons_append, macrosOf_cons, macrosOf_cons, macroAt?_append whole, ih later, append_assoc]

theorem defineText_shift (distance : Nat) (tokens : List Token) :
    defineText (tokens.map (shift distance)) = defineText tokens := by
  rw [defineText, takeWhile_map, filter_map, render_shift]
  rfl

theorem macrosOf_shift (distance : Nat) (tokens : List Token) :
    (macrosOf (tokens.map (shift distance))).value = (macrosOf tokens).value := by
  induction tokens with
  | nil => rfl
  | cons token rest ih =>
    rw [map_cons, macrosOf_cons, macrosOf_cons, ih, macroAt?, defineText_shift]
    rfl

/-! Files. -/

/-- The lexemes of a text are those of some items. -/
def IsFile (text : String) (items : List Item) : Prop :=
  lexemes text.toList = piecesOf items

/-- The bindings that are found in a text cover none of its code. -/
def BindingsClear (text : String) : Prop :=
  ∀ binding ∈ (Binding.table text).value, ∀ token ∈ codeTokens (lex text),
    ¬ (binding.start ≤ token.start ∧ token.start < binding.stop)

theorem bindingsClear_of_none {text : String} (none : (Binding.table text).value = []) :
    BindingsClear text := by
  simp [BindingsClear, none]

theorem lex_file {text : String} (file : IsFile text items) :
    lex text = place 0 (piecesOf items) := by
  rw [lex_eq_place, file]

theorem solid_file {text : String} (file : IsFile text items) :
    ∀ piece ∈ piecesOf items, piece.text ≠ [] := by
  intro piece mem
  rw [← file] at mem
  exact (splits_lexemes text.toList).ne_nil mem

theorem width_file {text : String} (file : IsFile text items) :
    width (piecesOf items) = text.length := by
  rw [width, ← file, (splits_lexemes text.toList).text_eq, String.length_toList]

theorem masksOf_clear {bindings : List Binding} {offset : Nat}
    (clear : ∀ binding ∈ bindings, ¬ (binding.start ≤ offset ∧ offset < binding.stop)) :
    (masksOf definitions bindings).contains (offset : Int) = covers definitions offset := by
  rw [← contains_spanSet, Bool.eq_iff_iff, masksOf, SpanSet.contains_foldl_insert]
  refine ⟨?_, .inl⟩
  rintro (held | ⟨span, mem, within⟩)
  · exact held
  · grind [SpanSet.Within]

/-- The statements of a file are those outside the definitions of its items. -/
theorem statements_file {text : String} (file : IsFile text items) (clear : BindingsClear text) :
    statements (lex text) (masksOf (definitionsFrom 0 items) (Binding.table text).value) =
      statementsFrom 0 [] (visibleFrom 0 items) := by
  rw [← filter_code_items items 0 (solid_file file), ← lex_file file]
  refine congrArg (statementsFrom 0 []) (filter_congr fun token mem => ?_)
  rw [masksOf_clear fun binding listed => clear binding listed token mem]

/-- The preamble of a file is read from its definitions, its macros and its statements. -/
theorem ofSource_file {source text : String} (cut : textOf? source = some text)
    (file : IsFile text items) (clear : BindingsClear text) (claimed : List String) :
    (ofSource source claimed).run.value =
      .ok (readAll text claimed (statementsFrom 0 [] (visibleFrom 0 items))
        (startOf text (definitionsFrom 0 items) (macrosOf (lex text)).value)) := by
  have scanned : Definition.scan (lex text) = .ok (definitionsFrom 0 items) := by
    rw [lex_file file, scan_items]
  rw [ofSource_value cut scanned, statements_file file clear]

end WebShader.Preamble
