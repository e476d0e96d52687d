import WebShader.Proofs.Definition.FileScope

/-!
Contract: the scan of a file gives its functions and structures, and nothing else.

Owns: statements at file scope that are no definition, and files that consist of
these, of functions and of structures.

Does not own: what the scan does at one place; that is `Scanning`.

Outside braces a statement is flat: it holds no semicolon, brace or structure,
also not in parentheses or square brackets. Where it starts, and behind each of
its blocks, a function head may stand as long as no body follows it, as in a
prototype.
-/

namespace WebShader.Definition

open List Token

/-- Lexemes without directives, semicolons, braces and structures. -/
def isFlat (pieces : List Lexeme) : Bool :=
  pieces.all fun piece => piece.kind != .directive &&
    !([punct ';', punct '\x7b', punct '\x7d', word "struct"].contains piece)

/-- No function starts here: no head does, or one that no body follows. -/
def Functionless (pieces : List Lexeme) : Prop :=
  startsFunction (codePieces false pieces) = false ∨ Bodyless pieces

/-- A statement at file scope, from its start or from behind a block on, that ends in its only
semicolon outside of brackets. -/
inductive Clause : List Lexeme → Prop where
  | ends {silent front : List Lexeme} (isSilent : Silent silent) (flat : isFlat front = true)
      (nested : Nested false front false) (functionless : Functionless (front ++ [punct ';'])) :
      Clause (silent ++ (front ++ [punct ';']))
  | block {silent front inside rest : List Lexeme} (isSilent : Silent silent)
      (flat : isFlat front = true) (nested : Nested false front false)
      (functionless : Functionless (front ++ punct '\x7b' :: (inside ++ punct '\x7d' :: rest)))
      (inner : Nested false inside false) (others : Clause rest) :
      Clause (silent ++ (front ++ punct '\x7b' :: (inside ++ punct '\x7d' :: rest)))

/-! Statements are passed over. -/

theorem silent_of_trivia {piece : Lexeme} (noCode : isCode piece = false)
    (notDirective : piece.kind ≠ .directive) : Silent [piece] := by
  have trivia : piece.kind.isTrivia := by
    rw [isCode, bne_iff_ne.mpr notDirective, Bool.and_true, Bool.not_eq_false'] at noCode
    exact noCode
  have line : directiveAfter false piece = false := by
    unfold directiveAfter
    split
    · rfl
    next directive => exact absurd directive notDirective
    · rfl
  exact ⟨by rw [codePieces, line, trivia]; rfl, line⟩

/-- Flat lexemes open nothing inside a statement, and where it starts if no head stands there. -/
theorem calm_flat {front rest : List Lexeme} (flat : isFlat front) {atStart : Bool}
    (headless : atStart → startsFunction (codePieces false (front ++ rest)) = false)
    (later : ∀ atStart, Calm atStart rest) : Calm atStart (front ++ rest) := by
  induction front generalizing atStart with
  | nil => exact later atStart
  | cons piece others ih =>
    rw [isFlat, all_cons, Bool.and_eq_true] at flat
    obtain ⟨here, flatOthers⟩ := flat
    simp only [Bool.and_eq_true, bne_iff_ne, Bool.not_eq_true', contains_cons,
      Bool.or_eq_false_iff, beq_eq_false_iff_ne] at here
    obtain ⟨notDirective, notEnd, notBrace, notCloser, notStruct, -⟩ := here
    cases code : isCode piece with
    | true =>
      rw [cons_append, codePieces_cons code] at headless
      refine .plain code notBrace (.inl ?_) ?_
      · simp_all [opensDefinition, startsStruct_other]
      · rw [endsStatement, beq_eq_false_iff_ne.mpr notEnd, beq_eq_false_iff_ne.mpr notCloser]
        exact ih flatOthers (fun absurdity => by cases absurdity)
    | false =>
      have silent : Silent [piece] := silent_of_trivia code notDirective
      have same : codePieces false (piece :: others ++ rest) = codePieces false (others ++ rest) := by
        rw [cons_append, ← singleton_append, codePieces_append, silent.1, silent.2, nil_append]
      rw [same] at headless
      rw [cons_append]
      exact .gap silent (ih flatOthers headless)

theorem calm_functionless {front rest : List Lexeme} (flat : isFlat front)
    (functionless : Functionless (front ++ rest)) (later : ∀ atStart, Calm atStart rest)
    (noWord : rest.head?.all (·.kind != .ident)) : Calm true (front ++ rest) := by
  rcases functionless with headless | bodyless
  · exact calm_flat flat (fun _ => headless) later
  · have starts := bodyless
    obtain ⟨head, _, _, _, _, _, shape, isHead, -, -⟩ := starts
    obtain ⟨first, others, rfl⟩ := isHead.exists_word
    cases front with
    | nil => grind
    | cons piece more =>
      obtain rfl : piece = word first := (List.cons.inj shape).1
      rw [isFlat, all_cons, Bool.and_eq_true] at flat
      exact .plain rfl (by rintro ⟨⟩) (.inr ⟨rfl, bodyless⟩)
        (calm_flat flat.2 (fun absurdity => by cases absurdity) later)

theorem Clause.calm {pieces : List Lexeme} (clause : Clause pieces) : Calm true pieces := by
  induction clause with
  | ends isSilent flat _ functionless =>
    have last (atStart : Bool) : Calm atStart [punct ';'] :=
      .plain rfl (by decide) (.inl (by cases atStart <;> rfl)) .nil
    exact .gap isSilent (calm_functionless flat functionless last rfl)
  | block isSilent flat _ functionless inner _ ih =>
    exact .gap isSilent (calm_functionless flat functionless (fun _ => .block inner ih) rfl)

/-! Files. -/

/-- What a file consists of. -/
inductive Portion where
  | gap (pieces : List Lexeme) (silent : Silent pieces)
  | function (item : FunctionItem)
  | struct (item : StructItem)
  /-- A prototype or any other statement without a structure. -/
  | statement (pieces : List Lexeme) (clause : Clause pieces)

namespace Portion

def pieces : Portion → List Lexeme
  | gap pieces _ => pieces
  | function item => item.pieces
  | struct item => item.pieces
  | statement pieces _ => pieces

/-- The definition of a portion that starts at an offset. -/
def definitions (offset : Nat) : Portion → List Definition
  | gap _ _ => []
  | function item => [item.definition offset]
  | struct item => [item.definition offset]
  | statement _ _ => []

theorem scans (portion : Portion) (offset : Nat) :
    Scans true (place offset portion.pieces) (portion.definitions offset) := by
  cases portion with
  | gap pieces silent => exact scans_silent silent offset
  | function item => exact item.scans offset
  | struct item => exact item.scans offset
  | statement pieces clause => exact scans_calm clause.calm offset

end Portion

def portionDefinitions (offset : Nat) : List Portion → List Definition
  | [] => []
  | portion :: rest =>
    portion.definitions offset ++ portionDefinitions (offset + width portion.pieces) rest

theorem scans_portions (portions : List Portion) (offset : Nat) :
    Scans true (place offset (portions.flatMap Portion.pieces))
      (portionDefinitions offset portions) := by
  induction portions generalizing offset with
  | nil =>
    intro before after
    exact map_nothing.symm
  | cons portion rest ih =>
    rw [flatMap_cons, place_parts]
    exact (portion.scans offset).append (ih (offset + width portion.pieces))

/-- The scan of a file gives the definitions of its functions and structures, in order, each with
its name, its texts and its extent. -/
theorem scan_portions (portions : List Portion) :
    scan (place 0 (portions.flatMap Portion.pieces)) = .ok (portionDefinitions 0 portions) :=
  (scans_portions portions 0).scan

/-- A head with a precision opens a function behind a block, although it starts with no type. -/
theorem ofSource_precision_behind_block :
    (ofSource "uniform B \x7b float a; \x7d highp float f() \x7b \x7d ;").toOption = some [
      { kind := .function, name := "f", returnType := "float", parameters := "", start := 23,
        stop := 42, bodyStart := 40, bodyStop := 41 }] := by
  decide +kernel

end WebShader.Definition
