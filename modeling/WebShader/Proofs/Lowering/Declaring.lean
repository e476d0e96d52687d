import WebShader.Lowering.Stage
import WebShader.Proofs.Sharing.Adoption
import WebShader.Proofs.Token.Spelling

/-!
Contract: the lexemes of declarations that lowering puts into a source.

Owns: the text of a source with declaration lines behind its header, and the
lexemes of a declaration in front of any other text.

Does not own: which uniforms are declared, and what their declarations mean for
the rest of the source.
-/

namespace WebShader.Lowering

open List Token Candidate
open Text
open Sharing

/-! The text. -/

def declarationLines (candidates : List Candidate) : List Char :=
  candidates.flatMap fun candidate => candidate.declaration.toList ++ ['\n']

theorem join_declarations (candidates : List Candidate) :
    (String.join ((candidates.map declaration).map (· ++ "\n"))).toList =
      declarationLines candidates := by
  induction candidates with
  | nil => rfl
  | cons candidate others ih =>
    rw [map_cons, map_cons, String.join_cons, String.toList_append, ih, String.toList_append]
    rfl

theorem insertDeclarations_toList {source : String}
    (present : (lines source).dropWhile isHeaderLine ≠ []) (candidates : List Candidate) :
    (insertDeclarations source (candidates.map declaration)).toList =
      headerText source ++ (declarationLines candidates ++ bodyText source) := by
  rw [insertDeclarations]
  split
  next none =>
    obtain rfl : candidates = [] := by simpa using none
    exact header_body present
  · have whole := unlines_append ((lines source).takeWhile isHeaderLine ++
      candidates.map declaration) present
    rw [whole, String.toList_append, map_append, String.join_append, String.toList_append,
      append_assoc, join_declarations]
    rfl

/-! The lexemes of one declaration. -/

/-- What may stand in the size of an array: names, numbers and the operators on them. -/
def isSizePiece (piece : Lexeme) : Bool :=
  piece.kind == .ident || piece.kind == .number || piece.kind == .whitespace ||
    (piece.kind == .punct && [['+'], ['-'], ['*'], ['/']].contains piece.text)

def openSquare : Lexeme := ⟨.punct, ['[']⟩

def closeSquare : Lexeme := ⟨.punct, [']']⟩

/-- Whether a text is empty or a size in square brackets. -/
def isSuffix (text : List Char) : Bool :=
  text.isEmpty || (lexemes text == openSquare :: ((lexemes text).tail.dropLast ++ [closeSquare]) &&
      (lexemes text).tail.dropLast.all isSizePiece && numbersApart (lexemes text))

/-- A candidate whose type and name are names, and whose suffix is one. -/
structure Candidate.WellFormed (candidate : Candidate) : Prop where
  typed : isName candidate.typeName.toList = true
  named : isName candidate.name.toList = true
  suffixed : isSuffix candidate.arraySuffix.toList = true

instance (candidate : Candidate) : Decidable candidate.WellFormed :=
  decidable_of_iff (isName candidate.typeName.toList = true ∧ isName candidate.name.toList = true ∧
      isSuffix candidate.arraySuffix.toList = true)
    ⟨fun holds => ⟨holds.1, holds.2.1, holds.2.2⟩, fun wellFormed =>
      ⟨wellFormed.typed, wellFormed.named, wellFormed.suffixed⟩⟩

def Candidate.pieces (candidate : Candidate) : List Lexeme :=
  [⟨.ident, "uniform".toList⟩, ⟨.whitespace, [' ']⟩, ⟨.ident, candidate.typeName.toList⟩,
    ⟨.whitespace, [' ']⟩, ⟨.ident, candidate.name.toList⟩] ++
    (lexemes candidate.arraySuffix.toList ++ [⟨.punct, [';']⟩, ⟨.newline, ['\n']⟩])

theorem isSuffix_cases {text : List Char} (suffix : isSuffix text) :
    lexemes text = [] ∨ numbersApart (lexemes text) ∧ ∃ size,
      lexemes text = openSquare :: (size ++ [closeSquare]) ∧ ∀ piece ∈ size, isSizePiece piece := by
  simp only [isSuffix, Bool.or_eq_true, Bool.and_eq_true, List.isEmpty_iff, beq_iff_eq,
    all_eq_true] at suffix
  rcases suffix with rfl | ⟨⟨shape, sizes⟩, apart⟩
  · exact .inl (Splits.lexemes_eq .nil)
  · exact .inr ⟨apart, _, shape, sizes⟩

theorem cleared_empty {text : List Char} {pieces : List Lexeme} (splits : Splits text pieces)
    (apart : numbersApart pieces) : Cleared [] false text pieces :=
  ⟨splits, apart, occurs_empty (fun _ mem => splits.ne_nil mem) false⟩

/-- A suffix in front of a semicolon. -/
theorem Cleared.suffix {text rest : List Char} {pieces : List Lexeme} (suffix : isSuffix text)
    (cleared : Cleared [] false (';' :: rest) pieces) :
    Cleared [] false (text ++ ';' :: rest) (lexemes text ++ pieces) ∧
      (text ++ ';' :: rest).head?.any Text.isWord = false := by
  have splits := splits_lexemes text
  rcases isSuffix_cases suffix with none | ⟨apart, size, shape, -⟩
  · rw [none] at splits ⊢
    cases splits
    exact ⟨cleared, rfl⟩
  · have closed : Closed (lexemes text) := by
      rw [shape, ← cons_append]
      exact closed_ended _ (by decide)
    have last : ∀ piece, (lexemes text).getLast? = some piece → piece.kind ≠ .number := by
      intro piece found
      rw [shape, ← cons_append, getLast?_concat] at found
      obtain rfl := Option.some.inj found
      decide
    constructor
    · refine cleared_empty (splits.append_closed closed cleared.splits) ?_
      rw [numbersApart_append_of_last last, apart, cleared.apart]
      rfl
    · rw [shape] at splits
      obtain ⟨behind, rfl, -⟩ := splits.cons_inv
      rfl

theorem declaration_toList (candidate : Candidate) :
    candidate.declaration.toList = "uniform".toList ++ ' ' :: (candidate.typeName.toList ++
      ' ' :: (candidate.name.toList ++ (candidate.arraySuffix.toList ++ [';']))) := by
  simp [declaration]

/-- A declaration splits into its lexemes whatever follows its line. -/
theorem Candidate.WellFormed.cleared {candidate : Candidate} (wellFormed : candidate.WellFormed)
    {rest : List Char} {pieces : List Lexeme} (cleared : Cleared [] false rest pieces) :
    Cleared [] false (candidate.declaration.toList ++ ['\n'] ++ rest)
      (candidate.pieces ++ pieces) := by
  have nameless {name : List Char} (named : isName name) : name ≠ [] := by
    rintro rfl
    cases named
  have stopped := cleared.lineEnd.bracket (show standsAlone ';' = true by decide)
  obtain ⟨suffixed, stops⟩ := Cleared.suffix wellFormed.suffixed stopped
  have named := suffixed.name wellFormed.named (nameless wellFormed.named) stops
  have typed := named.word wellFormed.typed (nameless wellFormed.typed)
    (blankLength_startsName (isName.startsName wellFormed.named _))
  have whole := typed.word (show isName "uniform".toList = true by decide) (by decide)
    (blankLength_startsName (isName.startsName wellFormed.typed _))
  rw [declaration_toList]
  simpa [Candidate.pieces] using whole

theorem declarationLines_cleared {candidates : List Candidate}
    (wellFormed : ∀ candidate ∈ candidates, candidate.WellFormed) {rest : List Char}
    {pieces : List Lexeme} (cleared : Cleared [] false rest pieces) :
    Cleared [] false (declarationLines candidates ++ rest)
      (candidates.flatMap Candidate.pieces ++ pieces) := by
  induction candidates with
  | nil => exact cleared
  | cons candidate others ih =>
    obtain ⟨here, later⟩ := forall_mem_cons.mp wellFormed
    have whole := here.cleared (ih later)
    simp only [declarationLines, flatMap_cons, append_assoc] at whole ⊢
    exact whole

/-! Declarations end their lines and have no point. -/

theorem Candidate.pieces_getLast? (candidate : Candidate) :
    candidate.pieces.getLast? = some ⟨.newline, ['\n']⟩ := by
  rw [pieces, getLast?_append, getLast?_append]
  rfl

theorem settled_declarations (candidates : List Candidate) :
    settled (candidates.flatMap pieces) := by
  rcases candidates.eq_nil_or_concat with rfl | ⟨others, last, rfl⟩
  · rfl
  · rw [concat_eq_append, flatMap_append, flatMap_singleton, settled,
      getLast?_append, last.pieces_getLast?]
    rfl

theorem suffix_plain {text : List Char} (suffix : isSuffix text) :
    ∀ piece ∈ lexemes text, isPoint piece = false := by
  intro piece listed
  rcases isSuffix_cases suffix with none | ⟨-, size, shape, sizes⟩
  · rw [none] at listed
    cases listed
  · rw [shape, mem_cons, mem_append, mem_singleton] at listed
    rcases listed with rfl | inside | rfl
    · rfl
    · have isSize := sizes piece inside
      rw [isPoint, Bool.and_eq_false_imp]
      intro kind
      rw [beq_eq_false_iff_ne]
      intro text
      simp [isSizePiece, beq_iff_eq.mp kind, text] at isSize
    · rfl

theorem Candidate.WellFormed.plain {candidate : Candidate} (wellFormed : candidate.WellFormed) :
    ∀ piece ∈ candidate.pieces, isPoint piece = false := by
  have suffix := suffix_plain wellFormed.suffixed
  intro piece listed
  rw [pieces, mem_append, mem_append] at listed
  rcases listed with front | inSuffix | back
  · simp only [mem_cons, not_mem_nil, or_false] at front
    rcases front with rfl | rfl | rfl | rfl | rfl <;> rfl
  · exact suffix piece inSuffix
  · simp only [mem_cons, not_mem_nil, or_false] at back
    rcases back with rfl | rfl <;> rfl

theorem declarations_plain {candidates : List Candidate}
    (wellFormed : ∀ candidate ∈ candidates, candidate.WellFormed) :
    ∀ piece ∈ candidates.flatMap pieces, isPoint piece = false := by
  intro piece listed
  obtain ⟨candidate, mem, inside⟩ := mem_flatMap.mp listed
  exact (wellFormed candidate mem).plain piece inside

theorem selectsAfter_plain {pieces : List Lexeme}
    (plain : ∀ piece ∈ pieces, isPoint piece = false) : selectsAfter false pieces = false := by
  induction pieces with
  | nil => rfl
  | cons piece rest ih => simp_all [selectsAfter]

/-! The lexemes of the whole source. -/

/-- Declarations go between the lexemes of the header and those of the body. -/
structure Insertable (source : String) : Prop where
  stands : headerStands source = true
  apart : numbersApart (lexemes source.toList) = true

theorem Insertable.parts {source : String} (insertable : Insertable source) :
    (lines source).dropWhile isHeaderLine ≠ [] ∧
      lexemes source.toList = lexemes (headerText source) ++ lexemes (bodyText source) ∧
      settled (lexemes (headerText source)) ∧
      selectsAfter false (lexemes (headerText source)) = false := by
  have stands := insertable.stands
  simp_all [headerStands, joins, header_body]

theorem lexemes_insertDeclarations {source : String} (insertable : Insertable source)
    {candidates : List Candidate} (wellFormed : ∀ candidate ∈ candidates, candidate.WellFormed) :
    lexemes (insertDeclarations source (candidates.map declaration)).toList =
      lexemes (headerText source) ++
        (candidates.flatMap pieces ++ lexemes (bodyText source)) := by
  obtain ⟨present, parts, isSettled, -⟩ := insertable.parts
  have apart := insertable.apart
  rw [parts] at apart
  obtain ⟨headerApart, bodyApart⟩ := numbersApart_parts apart
  have inserted := declarationLines_cleared wellFormed
    (cleared_empty (splits_lexemes (bodyText source)) bodyApart)
  have whole := (splits_lexemes (headerText source)).append isSettled inserted.splits
  rw [insertDeclarations_toList present]
  exact whole.lexemes_eq

/-! A source on its way. -/

/-- A source without bindings and with flat names. -/
def flattened (context : Context) (source : String) : String :=
  (flattenMembers context (removeBindings source).value).value

def prepared (context : Context) (source : String) : String :=
  dropSelfDefinitions (flattened context source)

def added (context : Context) (source : String) : List Candidate :=
  neededUniforms context (prepared context source)

theorem lower_value (context : Context) (source : String) :
    (lower context source).value = insertDeclarations (prepared context source)
        ((added context source).map declaration) :=
  rfl

end WebShader.Lowering
