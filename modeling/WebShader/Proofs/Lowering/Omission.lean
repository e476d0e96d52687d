import WebShader.Proofs.Lowering.Flattening

/-!
Contract: accesses and lexemes that are left out.

Owns: lists of lexemes without some that start a line, that no access on one
line comes up there, and that the texts of comments do not matter for it.

Self definitions are found by their lines and not by their tokens. One that ends
within a word may leave an access behind that was none before, so only whole
lexemes may be left out.
-/

namespace WebShader.Lowering

open List Token
open Text
open Sharing

variable {first second selects : Bool} {context : Context} {piece : Lexeme}
  {after kept pieces rest : List Lexeme} {mem : String} {lineStart : Bool}

/-- The lexemes of an access, with no line end among them. -/
theorem AccessAhead.segment (ahead : AccessAhead context pieces mem after) :
    ∃ segment, pieces = segment ++ after ∧ (∀ piece ∈ segment, piece.kind ≠ .newline) ∧
      point ∈ segment ∧ ∀ other, AccessAhead context (segment ++ other) mem other := by
  cases ahead with
  | @intro name binding mem gap innerGap rest block found inline innerInline =>
    have notNewline : ∀ {piece : Lexeme}, isInline piece → piece.kind ≠ .newline := by
      intro piece isInline kind
      rw [Lowering.isInline, kind] at isInline
      cases isInline
    refine ⟨⟨.ident, name.toList⟩ :: (gap ++ point :: (innerGap ++ [⟨.ident, mem.toList⟩])),
      by simp, ?_, by simp, ?_⟩
    · intro piece listed
      simp only [mem_cons, mem_append, not_mem_nil, or_false] at listed
      rcases listed with rfl | first | rfl | second | rfl
      · rintro ⟨⟩
      · exact notNewline (inline piece first)
      · rintro ⟨⟩
      · exact notNewline (innerInline piece second)
      · rintro ⟨⟩
    · intro other
      have ahead : AccessAhead context (⟨.ident, name.toList⟩ ::
          (gap ++ point :: (innerGap ++ ⟨.ident, mem.toList⟩ :: other))) mem other :=
        .intro block found inline innerInline
      simpa using ahead

/-! Leaving out lexemes. -/

/-- Whether the second list is the first one without some lexemes. They are left out from
the start of a line on, and no point is among them. -/
def omits : Bool → List Lexeme → List Lexeme → Bool
  | _, [], kept => kept.isEmpty
  | lineStart, piece :: rest, kept =>
    (lineStart && !isPoint piece && omits true rest kept) ||
      match kept with
      | [] => false
      | first :: others => first == piece && omits (piece.kind == .newline) rest others

theorem omits_cons (omitted : omits lineStart (piece :: rest) kept) :
    (lineStart ∧ isPoint piece = false ∧ omits true rest kept) ∨
      ∃ others, kept = piece :: others ∧ omits (piece.kind == .newline) rest others := by
  cases kept with
  | nil => simp_all [omits]
  | cons first others =>
    simp only [omits] at omitted
    grind

/-- Within a line nothing is left out. -/
theorem omits_segment {segment : List Lexeme} (sameLine : ∀ piece ∈ segment, piece.kind ≠ .newline)
    (omitted : omits false pieces (segment ++ after)) :
    ∃ rest, pieces = segment ++ rest := by
  induction segment generalizing pieces with
  | nil => exact ⟨pieces, rfl⟩
  | cons piece others ih =>
    cases pieces with
    | nil => cases omitted
    | cons first rest =>
      rcases omits_cons omitted with ⟨lineStart, -⟩ | ⟨kept, shape, further⟩
      · cases lineStart
      grind

theorem Flat.tail (flat : Flat context selects (piece :: rest)) :
    Flat context (selectsAfter selects [piece]) rest :=
  fun before n shape free => flat (piece :: before) n (by rw [shape]; rfl) free

theorem selectsAfter_le (order : second = false → first = false) (piece : Lexeme)
    (free : selectsAfter second [piece] = false) : selectsAfter first [piece] = false := by
  rw [selectsAfter, selectsAfter] at free ⊢
  grind

/-- No access comes up where lexemes are left out. -/
theorem Flat.omits (omitted : omits lineStart pieces kept)
    (order : second = false → first = false) (flat : Flat context first pieces) :
    Flat context second kept := by
  induction pieces generalizing lineStart first second kept with
  | nil =>
    obtain rfl : kept = [] := by simpa [Lowering.omits] using omitted
    exact fun before rest shape free => flat before rest shape (by
      rw [(append_eq_nil_iff.mp shape.symm).1] at free ⊢
      exact order free)
  | cons piece rest ih =>
    rcases omits_cons omitted with ⟨-, notPoint, later⟩ | ⟨others, rfl, later⟩
    · refine ih later (fun free => ?_) flat.tail
      grind [selectsAfter]
    · have n := ih later (selectsAfter_le order piece) flat.tail
      intro before behind shape free mem after ahead
      cases before with
      | cons head further =>
        obtain ⟨rfl, rfl⟩ := List.cons.inj shape
        exact n further behind rfl free mem after ahead
      | nil =>
        obtain rfl := shape
        obtain ⟨segment, whole, sameLine, hasPoint, again⟩ := ahead.segment
        cases segment with
        | nil => cases hasPoint
        | cons head inside =>
          obtain ⟨rfl, rfl⟩ := List.cons.inj whole
          obtain ⟨here, further⟩ := forall_mem_cons.mp sameLine
          have within : (piece.kind == .newline) = false := by simpa using here
          rw [within] at later
          obtain ⟨behind, rfl⟩ := omits_segment further later
          exact flat [] _ rfl (order free) mem behind (again behind)

theorem numbersApart_omits (omitted : omits lineStart pieces kept)
    (apart : numbersApart pieces) : numbersApart kept := by
  induction pieces generalizing lineStart kept with
  | nil =>
    obtain rfl : kept = [] := by simpa [omits] using omitted
    rfl
  | cons piece rest ih =>
    rw [numbersApart, Bool.and_eq_true] at apart
    rcases omits_cons omitted with ⟨-, -, later⟩ | ⟨others, rfl, later⟩
    · exact ih later apart.2
    · rw [numbersApart, ih later apart.2]
      by_cases number : piece.kind = .number
      · -- A number ends no line, so what follows it is kept.
        rw [number] at later
        have same : others.head?.any (·.kind == .ident) → rest.head?.any (·.kind == .ident) := by
          intro named
          cases others with
          | nil => cases named
          | cons second further =>
            cases rest with
            | nil => cases later
            | cons first n =>
              rcases omits_cons later with ⟨lineStart, -⟩ | ⟨_, shape, -⟩
              · cases lineStart
              · rwa [← (List.cons.inj shape).1]
        grind
      · simp [number]

/-! Comments. -/

theorem bleached_eq_code {code : Lexeme} (notComment : code.kind ≠ .comment)
    (same : bleached piece = code) : piece = code := by
  have kind := bleached_kind piece
  rw [same] at kind
  rw [← same, bleached_text (kind ▸ notComment)]

theorem isInline_bleached (piece : Lexeme) : isInline (bleached piece) = isInline piece := by
  rw [isInline, isInline, bleached_kind]

theorem selectsAfter_bleached (selects : Bool) (pieces : List Lexeme) :
    selectsAfter selects (pieces.map bleached) = selectsAfter selects pieces := by
  induction pieces generalizing selects with
  | nil => rfl
  | cons piece rest ih =>
    have same : (if (bleached piece).kind.isTrivia then selects else isPoint (bleached piece)) =
        if piece.kind.isTrivia then selects else isPoint piece := by
      rw [bleached_kind]
      split
      · rfl
      next code =>
        rw [bleached_text]
        intro comment
        rw [comment] at code
        exact code rfl
    rw [map_cons, selectsAfter, ih, same]
    rfl

theorem AccessAhead.bleach (ahead : AccessAhead context pieces mem after) :
    AccessAhead context (pieces.map bleached) mem (after.map bleached) := by
  cases ahead with
  | @intro name binding mem gap innerGap after block found inline innerInline =>
    have inlines {pieces : List Lexeme} (inline : ∀ piece ∈ pieces, isInline piece) :
        ∀ piece ∈ pieces.map bleached, isInline piece :=
      forall_mem_map.mpr fun piece mem => by rw [isInline_bleached, inline piece mem]
    simp only [map_cons, map_append]
    exact .intro block found (inlines inline) (inlines innerInline)

theorem AccessAhead.unbleach (ahead : AccessAhead context (pieces.map bleached) mem after) :
    ∃ behind, AccessAhead context pieces mem behind := by
  generalize shape : pieces.map bleached = pale at ahead
  cases ahead with
  | @intro name binding mem gap innerGap after block found inline innerInline =>
    obtain ⟨first, afterName, rfl, isName, gapShape⟩ := map_eq_cons_iff.mp shape
    obtain ⟨gapPieces, fromDot, rfl, rfl, dotShape⟩ := map_eq_append_iff.mp gapShape
    obtain ⟨dot, afterDot, rfl, isDot, innerShape⟩ := map_eq_cons_iff.mp dotShape
    obtain ⟨innerPieces, fromMember, rfl, rfl, memberShape⟩ := map_eq_append_iff.mp innerShape
    obtain ⟨last, behind, rfl, isMember, -⟩ := map_eq_cons_iff.mp memberShape
    obtain rfl := bleached_eq_code (by simp) isName
    obtain rfl := bleached_eq_code (by decide) isDot
    obtain rfl := bleached_eq_code (by simp) isMember
    have inlines {pieces : List Lexeme} (inline : ∀ piece ∈ pieces.map bleached, isInline piece) :
        ∀ piece ∈ pieces, isInline piece := fun piece mem => by
      rw [← isInline_bleached, forall_mem_map.mp inline piece mem]
    exact ⟨behind, .intro block found (inlines inline) (inlines innerInline)⟩

theorem Flat.of_bleached (flat : Flat context selects (pieces.map bleached)) :
    Flat context selects pieces := by
  rintro before rest rfl free mem after ahead
  refine flat (before.map bleached) (rest.map bleached) map_append ?_ mem _ ahead.bleach
  rw [selectsAfter_bleached, free]

theorem Flat.bleached (flat : Flat context selects pieces) :
    Flat context selects (pieces.map bleached) := by
  intro before rest shape free mem after ahead
  obtain ⟨front, back, rfl, rfl, rfl⟩ := map_eq_append_iff.mp shape
  obtain ⟨behind, wasAhead⟩ := ahead.unbleach
  rw [selectsAfter_bleached] at free
  exact flat front back rfl free mem behind wasAhead

/-- Whether dropping self definitions leaves out whole lexemes, apart from the texts of
comments. -/
def dropsCleanly (source : String) : Bool :=
  omits true ((lexemes source.toList).map bleached)
    ((lexemes (dropSelfDefinitions source).toList).map bleached)

theorem dropSelfDefinitions_flat {source : String} (clean : dropsCleanly source)
    (apart : numbersApart (lexemes source.toList))
    (flat : Flat context false (lexemes source.toList)) :
    numbersApart (lexemes (dropSelfDefinitions source).toList) ∧
      Flat context false (lexemes (dropSelfDefinitions source).toList) := by
  constructor
  · rw [← numbersApart_bleached] at apart ⊢
    exact numbersApart_omits clean apart
  · exact (flat.bleached.omits clean id).of_bleached

end WebShader.Lowering
