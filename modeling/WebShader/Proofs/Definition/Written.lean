import WebShader.Proofs.Definition.Declaring
import WebShader.Proofs.Token.Spelling

/-!
Contract: declarations as text, with blanks and comments between their code.

Owns: lexemes without directive lines, and that a declaration opens no definition.
-/

namespace WebShader.Token

open List

variable {piece : Lexeme} {pieces : List Lexeme} {rest : List Lexeme}

/-! Lexemes without directive lines. -/

/-- No directive line starts among the lexemes. -/
def Undirected (pieces : List Lexeme) : Prop :=
  ∀ piece ∈ pieces, piece.kind ≠ .directive

theorem directiveAfter_false (plain : piece.kind ≠ .directive) :
    directiveAfter false piece = false := by grind [directiveAfter]

theorem Undirected.tail (plain : Undirected (piece :: rest)) :
    Undirected rest :=
  (forall_mem_cons.mp plain).2

theorem Undirected.state (plain : Undirected pieces) :
    pieces.foldl directiveAfter false = false := by
  induction pieces with
  | nil => rfl
  | cons piece rest ih =>
    rw [foldl_cons, directiveAfter_false (plain piece mem_cons_self), ih plain.tail]

/-- Without directive lines the code is what is not trivia. -/
theorem Undirected.codePieces (plain : Undirected pieces) :
    codePieces false pieces = pieces.filter isCode := by
  induction pieces with
  | nil => rfl
  | cons piece rest ih =>
    have notDirective := plain piece mem_cons_self
    have code : isCode piece = !piece.kind.isTrivia := by
      rw [isCode, bne_iff_ne.mpr notDirective, Bool.and_true]
    rw [Token.codePieces, directiveAfter_false notDirective, ih plain.tail, filter_cons, code]
    cases piece.kind.isTrivia <;> rfl

theorem Undirected.append {others : List Lexeme} (plain : Undirected (pieces ++ others)) :
    Undirected pieces ∧ Undirected others :=
  ⟨fun piece mem => plain piece (mem_append_left _ mem),
    fun piece mem => plain piece (mem_append_right _ mem)⟩

theorem isCode_of_bracket (bracket : opensGroup piece ∨ closesGroup piece) :
    isCode piece := by
  rcases bracket with opens | closes
  · obtain ⟨pair, listed, same⟩ := any_eq_true.mp opens
    rcases mem_bracketPairs.mp listed with rfl | rfl | rfl <;>
      · rw [← beq_iff_eq.mp same]
        rfl
  · obtain ⟨pair, listed, same⟩ := any_eq_true.mp closes
    rcases mem_bracketPairs.mp listed with rfl | rfl | rfl <;>
      · rw [← beq_iff_eq.mp same]
        rfl

theorem nested_trivia {trivia : List Lexeme} (noCode : ∀ piece ∈ trivia, ¬ isCode piece)
    (plain : Undirected trivia) (later : Nested false rest false) :
    Nested false (trivia ++ rest) false := by
  induction trivia with
  | nil => exact later
  | cons piece others ih =>
    have notCode := noCode piece mem_cons_self
    have n := ih (forall_mem_cons.mp noCode).2 plain.tail
    refine .plain ?_ ?_ ?_
    · grind [isCode_of_bracket]
    · grind [isCode_of_bracket]
    · rwa [directiveAfter_false (plain piece mem_cons_self)]

/-- Lexemes nest as their code does. -/
theorem nested_of_code {onLine after : Bool} {code : List Lexeme}
    (nested : Nested onLine code after) (start : onLine = false) (plain : Undirected pieces)
    (shape : pieces.filter isCode = code) : Nested false pieces false := by
  induction nested generalizing pieces with
  | nil onLine =>
    rw [← append_nil pieces]
    exact nested_trivia (filter_eq_nil_iff.mp shape) plain (.nil false)
  | @plain onLine after piece rest notOpener notCloser _ ih =>
    obtain ⟨trivia, later, rfl, noCode, isCode, laterShape⟩ := filter_eq_cons_iff.mp shape
    obtain ⟨plainTrivia, plainLater⟩ := plain.append
    have still := directiveAfter_false (plainLater piece mem_cons_self)
    refine nested_trivia noCode plainTrivia (.plain notOpener notCloser ?_)
    rw [still]
    exact ih (by rw [start, still]) plainLater.tail laterShape
  | @group onLine after opener closer inside rest pair _ _ innerHypothesis ih =>
    obtain ⟨trivia, later, rfl, noCode, -, laterShape⟩ := filter_eq_cons_iff.mp shape
    obtain ⟨inner, behind, rfl, innerShape, behindShape⟩ := filter_eq_append_iff.mp laterShape
    obtain ⟨gap, others, rfl, noGapCode, -, othersShape⟩ := filter_eq_cons_iff.mp behindShape
    obtain ⟨plainTrivia, plainLater⟩ := plain.append
    obtain ⟨plainInner, plainBehind⟩ := plainLater.tail.append
    obtain ⟨plainGap, plainOthers⟩ := plainBehind.append
    -- blanks in front of the closing bracket count as inside
    have inside : Nested false (inner ++ gap) false := by
      have silent : Nested false (gap ++ []) false := nested_trivia noGapCode plainGap (.nil false)
      rw [append_nil] at silent
      exact (innerHypothesis start plainInner innerShape).append silent
    have closing := Nested.group pair inside (ih start plainOthers.tail othersShape)
    rw [append_assoc] at closing
    exact nested_trivia noCode plainTrivia closing

/-- A text without a hash has no directive lines. -/
theorem Splits.undirected {text : List Char} (splits : Splits text pieces) (noHash : '#' ∉ text) :
    Undirected pieces := by
  intro piece mem directive
  obtain ⟨rest, -, leads, -⟩ := (splits.singleton mem).cons_inv
  rw [directive] at leads
  have measured : directive? piece.text = some piece.text.length :=
    measureOf_frontToken (frontToken_alone leads) (by decide)
  have opens : '#' ∈ piece.text := by
    cases shape : piece.text with
    | nil => rw [shape] at measured; cases measured
    | cons c others =>
      rw [shape] at measured
      by_cases hash : c = '#'
      · exact hash ▸ mem_cons_self
      · simp [directive?, hash] at measured
  refine noHash ?_
  rw [← splits.text_eq]
  exact mem_flatMap.mpr ⟨piece, mem, opens⟩

end WebShader.Token

namespace WebShader.Definition

open List Token

variable {piece : Lexeme} {others pieces rest : List Lexeme} {code : List Lexeme}

/-! Code that opens no definition anywhere. -/

/-- Whether no definition opens at any place of the code, were it the start of a statement. -/
def opensNowhere : List Lexeme → Bool
  | [] => true
  | piece :: rest => !opensDefinition true (piece :: rest) && opensNowhere rest

theorem opensNowhere_tail (nowhere : opensNowhere (pieces ++ others)) :
    opensNowhere others := by
  induction pieces with
  | nil => exact nowhere
  | cons piece rest ih =>
    rw [cons_append, opensNowhere, Bool.and_eq_true] at nowhere
    exact ih nowhere.2

theorem namesApart_tail (apart : namesApart (pieces ++ others)) :
    namesApart others := by
  induction pieces with
  | nil => exact apart
  | cons piece rest ih =>
    refine ih ?_
    cases shape : rest ++ others with
    | nil => rfl
    | cons second more =>
      rw [cons_append, shape, namesApart, Bool.and_eq_true] at apart
      exact apart.2

theorem opensWith_apart (apart : namesApart code)
    (test : Lexeme → Lexeme → Bool) : opensWith test code = false := by
  rcases code with _ | ⟨first, _ | ⟨second, _ | ⟨third, more⟩⟩⟩
  · rfl
  · rfl
  · rfl
  · rw [namesApart, Bool.and_eq_true, Bool.not_eq_true'] at apart
    rw [opensWith, apart.1, Bool.false_and]

/-- Names that stand apart open no definition. -/
theorem opensNowhere_apart (apart : namesApart code) :
    opensNowhere code := by
  induction code with
  | nil => rfl
  | cons piece rest ih =>
    have fn : startsFunction (piece :: rest) = false := by
      obtain ⟨front, shape⟩ := dropWhile_suffix isPrecision (l := piece :: rest)
      rw [← shape] at apart
      exact opensWith_apart (namesApart_tail apart) _
    have struct : startsStruct (piece :: rest) = false := opensWith_apart apart _
    rw [opensNowhere, opensDefinition, struct, fn, ih (namesApart_tail (singleton_append ▸ apart))]
    rfl

theorem quiet_trivia {trivia : List Lexeme} (noCode : ∀ piece ∈ trivia, ¬ isCode piece)
    (plain : Undirected trivia) {atStart : Bool} (later : Quiet atStart rest) :
    Quiet atStart (trivia ++ rest) := by
  refine .gap ⟨?_, plain.state⟩ later
  rw [plain.codePieces]
  exact filter_eq_nil_iff.mpr noCode

theorem quiet_code (code : isCode piece) (notBrace : piece ≠ punct '\x7b')
    (plain : Undirected rest) (nowhere : opensNowhere (piece :: rest.filter isCode))
    (later : ∀ atStart, Quiet atStart rest) (atStart : Bool) : Quiet atStart (piece :: rest) := by
  refine .plain code notBrace ?_ (later _)
  rw [plain.codePieces]
  simp_all [opensNowhere, opensDefinition]

/-- Nested lexemes whose code opens no definition are quiet in front of quiet ones. -/
theorem quiet_nested {onLine after : Bool} (nested : Nested onLine pieces after)
    (start : onLine = false) (plain : Undirected (pieces ++ rest))
    (later : ∀ atStart, Quiet atStart rest)
    (nowhere : opensNowhere ((pieces ++ rest).filter isCode)) (atStart : Bool) :
    Quiet atStart (pieces ++ rest) := by
  induction nested generalizing rest atStart with
  | nil onLine => exact later atStart
  | @plain onLine after piece others notOpener notCloser _ ih =>
    have notDirective := plain piece mem_cons_self
    have still : directiveAfter onLine piece = false := by
      rw [start, directiveAfter_false notDirective]
    rw [cons_append, filter_cons] at nowhere
    by_cases code : isCode piece = true
    · rw [if_pos code] at nowhere
      refine quiet_code code ?_ plain.tail nowhere (fun atStart => ?_) atStart
      · rintro rfl
        cases notOpener
      · exact ih still plain.tail later (opensNowhere_tail (singleton_append ▸ nowhere)) atStart
    · rw [if_neg code] at nowhere
      have front : Quiet atStart ([piece] ++ (others ++ rest)) :=
        quiet_trivia (by simpa using code) (by simpa [Undirected] using notDirective)
          (ih still plain.tail later nowhere atStart)
      exact front
  | @group onLine after opener closer inside others pair inner _ innerHypothesis ih =>
    subst start
    have brackets : isCode opener ∧ isCode closer ∧ closer ≠ punct '\x7b' := by
      rcases mem_bracketPairs.mp pair with same | same | same <;> cases same <;> decide
    obtain ⟨openCode, closeCode, notBrace⟩ := brackets
    have shape : opener :: (inside ++ closer :: others) ++ rest =
        opener :: (inside ++ closer :: (others ++ rest)) := by simp
    rw [shape] at plain nowhere ⊢
    have behind := nowhere
    rw [filter_cons_of_pos openCode, filter_append, ← cons_append] at behind
    have closing := opensNowhere_tail behind
    rw [filter_cons_of_pos closeCode] at closing
    have plainBehind := plain.tail.append.2
    have afterwards (atStart : Bool) : Quiet atStart (others ++ rest) :=
      ih rfl plainBehind.tail later (opensNowhere_tail (singleton_append ▸ closing)) atStart
    by_cases brace : opener = punct '\x7b'
    · obtain rfl : closer = punct '\x7d' := by
        rcases mem_bracketPairs.mp pair with same | same | same <;> cases same
        · cases brace
        · cases brace
        · rfl
      rw [brace]
      exact .block inner (afterwards true)
    · rw [filter_cons_of_pos openCode] at nowhere
      refine quiet_code openCode brace plain.tail nowhere (fun atStart => ?_) atStart
      exact innerHypothesis rfl plain.tail
        (quiet_code closeCode notBrace plainBehind.tail closing afterwards)
        (opensNowhere_tail (singleton_append ▸ nowhere)) atStart

/-! Declarations. -/

theorem namesApart_punct (pieces others : List Lexeme) (c : Char) :
    namesApart (pieces ++ punct c :: others) = (namesApart pieces && namesApart others) := by
  have behind : namesApart (punct c :: others) = namesApart others := by
    cases others with
    | nil => rfl
    | cons second rest =>
      rfl
  induction pieces with
  | nil => exact behind
  | cons piece rest ih =>
    cases rest with
    | nil =>
      have other : ((punct c).kind == TokenKind.ident) = false := rfl
      rw [singleton_append, namesApart, other, Bool.and_false, behind]
      rfl
    | cons second more =>
      rw [cons_append, cons_append, namesApart, ← cons_append, ih, namesApart, Bool.and_assoc]

end WebShader.Definition

namespace WebShader.Preamble

open List Token Definition

variable {decls : List DeclaratorCode} {typeName : String}

theorem namesApart_joinCode (apart : ∀ decl ∈ decls, namesApart decl.code) :
    namesApart (joinCode decls) := by
  induction decls with
  | nil => rfl
  | cons decl rest ih =>
    have here := apart decl mem_cons_self
    cases rest with
    | nil => exact here
    | cons second more =>
      rw [joinCode, namesApart_punct, here, ih (forall_mem_cons.mp apart).2]
      rfl

theorem DeclaratorCode.exists_code (decl : DeclaratorCode) (others : List Lexeme) (c : Char)
    (notOpening : c ≠ '(') : ∃ third rest, third.text ≠ ['('] ∧
      decl.code ++ punct c :: others = word decl.name :: third :: rest := by
  rcases decl with ⟨name, array, value, groups, onePart⟩
  rw [code]
  cases groups with
  | nil =>
    rw [initial]
    split
    · exact ⟨punct c, others, fun same => notOpening (List.cons.inj same).1, rfl⟩
    · exact ⟨punct '=', _, by decide, rfl⟩
  | group nested others => exact ⟨punct '[', _, by decide, rfl⟩

theorem exists_joinCode (present : decls ≠ []) :
    ∃ name third rest, third.text ≠ ['('] ∧
      joinCode decls ++ [punct ';'] = word name :: third :: rest := by
  match decls with
  | [] => exact absurd rfl present
  | [decl] =>
    obtain ⟨third, rest, other, shape⟩ := decl.exists_code [] ';' (by decide)
    exact ⟨decl.name, third, rest, other, shape⟩
  | decl :: second :: more =>
    obtain ⟨third, rest, other, shape⟩ :=
      decl.exists_code (joinCode (second :: more) ++ [punct ';']) ',' (by decide)
    refine ⟨decl.name, third, rest, other, ?_⟩
    rw [joinCode, append_assoc, cons_append, shape]

/-- The code of a declaration opens no definition. -/
theorem opensNowhere_declaration (plain : PlainType typeName) (isConst : Bool)
    (present : decls ≠ [])
    (apart : ∀ decl ∈ decls, namesApart decl.code) :
    opensNowhere (declarationCode isConst typeName decls) := by
  have body : opensNowhere (joinCode decls ++ [punct ';']) := by
    refine opensNowhere_apart ?_
    rw [namesApart_punct, namesApart_joinCode apart]
    rfl
  obtain ⟨name, third, rest, other, shape⟩ := exists_joinCode present
  have notStruct : (word typeName == word "struct") = false := by
    rw [beq_eq_false_iff_ne]
    intro same
    exact plain.other.2.2 (String.toList_inj.mp (Lexeme.mk.inj same).2)
  have notPrecision : isPrecision (word typeName) = false := by
    rw [isPrecision_word]
    refine Bool.eq_false_iff.mpr fun listed => plain.unqualified ?_
    have mem := contains_iff_mem.mp listed
    simp [storageQualifiers, mem]
  have typed : opensNowhere (word typeName :: (joinCode decls ++ [punct ';'])) := by
    have fn : startsFunction (word typeName :: word name :: third :: rest) = false := by
      rw [startsFunction, dropWhile_cons_of_neg (by simp [notPrecision]), opensWith,
        beq_eq_false_iff_ne.mpr other]
      simp
    rw [opensNowhere, body, opensDefinition, startsStruct_other notStruct, shape, fn]
    rfl
  rw [declarationCode]
  cases isConst with
  | false => exact typed
  | true =>
    have fn : startsFunction
        (word "const" :: word typeName :: (joinCode decls ++ [punct ';'])) = false := by
      have qualifier : storageQualifiers.contains (String.ofList (word "const").text) := by
        decide
      rw [shape, startsFunction, dropWhile_cons_of_neg (by decide), opensWith, qualifier]
      simp
    rw [leadCode, if_pos rfl, singleton_append, opensNowhere, typed, opensDefinition,
      startsStruct_other (by decide), fn]
    rfl

/-- The lexemes of a declaration are one quiet statement. -/
theorem quiet_declaration (plain : PlainType typeName) {isConst : Bool} (present : decls ≠ [])
    (apart : ∀ decl ∈ decls, namesApart decl.code) {pieces : List Lexeme}
    (undirected : Undirected pieces)
    (shape : pieces.filter isCode = declarationCode isConst typeName decls) :
    Quiet true pieces ∧ Nested false pieces false := by
  have nested := nested_of_code (declarationCode_nested isConst typeName decls) rfl undirected shape
  refine ⟨?_, nested⟩
  have nowhere := opensNowhere_declaration plain isConst present apart
  rw [← shape] at nowhere
  have whole : declarationCode isConst typeName decls =
      (leadCode isConst ++ ([word typeName] ++ joinCode decls)) ++ [punct ';'] := by
    simp [declarationCode]
  rw [whole] at shape
  obtain ⟨front, behind, rfl, frontShape, behindShape⟩ := filter_eq_append_iff.mp shape
  obtain ⟨trivia, tail, rfl, noCode, -, tailShape⟩ := filter_eq_cons_iff.mp behindShape
  obtain ⟨plainFront, plainBehind⟩ := undirected.append
  obtain ⟨plainTrivia, plainTail⟩ := plainBehind.append
  have ends (atStart : Bool) : Quiet atStart (trivia ++ punct ';' :: tail) := by
    refine quiet_trivia noCode plainTrivia (.plain rfl (by decide) ?_ ?_)
    · rw [plainTail.tail.codePieces, tailShape]
      cases atStart <;> rfl
    · have last : Quiet true (tail ++ []) :=
        quiet_trivia (filter_eq_nil_iff.mp tailShape) plainTail.tail .nil
      rwa [append_nil] at last
  have frontNested := nested_of_code ((leadCode_ended isConst).1.append
    ((onePart_word typeName).nested.append (joinCode_ended decls).1)) rfl plainFront frontShape
  exact quiet_nested frontNested rfl undirected ends nowhere true

end WebShader.Preamble
