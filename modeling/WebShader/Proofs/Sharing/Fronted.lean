import WebShader.Proofs.Sharing.FixedLines

/-!
Contract: sources that start with fixed lines.

Owns: what the edits of a stage do to such a source, and the declarations of a
name that they leave.

The first channel that is declared makes the header and its own declaration
fixed. From then on declarations are put in among the fixed lines, and all
other edits take place behind them.
-/

namespace WebShader.Sharing

open List Token Lowering
open Text

variable {channel : Channel} {side : ChannelSide} {cut : Cut} {target : GlobalVariable}
  {back filling : List Char} {added : List Lexeme} {fixed names : List String}
  {name result source : String}

/-- A source with fixed lines in front. -/
structure Fronted (side : ChannelSide) (names : List String) (source : String)
    (fixed : List String) (back : List Char) : Prop where
  text : source.toList = linesText fixed ++ back
  fixedLines : ∀ line ∈ fixed, FixedLine side names line
  apart : numbersApart (lexemes back) = true

theorem fronted_whole (side : ChannelSide) (names : List String)
    (apart : numbersApart (lexemes source.toList)) :
    Fronted side names source [] source.toList :=
  ⟨rfl, fun _ absurdity => absurd absurdity not_mem_nil, apart⟩

/-- The fixed lines hold the given declarations of a name, and there are no others. -/
structure Shows (side : ChannelSide) (name : String) (expected : List InterfaceVariable)
    (fixed : List String) (back : List Char) : Prop where
  front : (fixed.flatMap fun line => declaredIn side (lineLexemes line)).filter (·.name == name) =
    expected
  lacks : Lacks side name (lexemes back)

theorem Lacks.filter {pieces : List Lexeme} :
    Lacks side name pieces ↔ (declaredIn side pieces).filter (·.name == name) = [] := by
  rw [filter_eq_nil_iff, Lacks]
  simp only [beq_iff_eq]

/-- Whether the declaration of a global is cut out behind whole declarations, and without
the line end of a directive. -/
def cutsOutside (side : ChannelSide) (target : GlobalVariable) (source : String) : Bool :=
  match declarationCut? target source with
  | .ok (some cut) => isWhole side (lexemes cut.before) &&
      !(lexemes cut.declaration).foldl directiveAfter false
  | _ => true

/-- A text that may be put in front of any other one and declares nothing. -/
structure Neutral (side : ChannelSide) (filling : List Char) (added : List Lexeme) : Prop where
  fills : ∀ rest pieces, Cleared [] false rest pieces →
    Cleared [] false (filling ++ rest) (added ++ pieces)
  whole : isWhole side added = true
  nothing : declaredIn side added = []

theorem Neutral.lineEnd (neutral : Neutral side filling added) :
    Neutral side (filling ++ ['\n']) (added ++ [⟨.newline, ['\n']⟩]) where
  fills := by
    intro rest pieces cleared
    rw [append_assoc, append_assoc]
    exact neutral.fills _ _ cleared.lineEnd
  whole := by
    rw [isWhole_append neutral.whole]
    rfl
  nothing := by
    rw [declaredIn_append neutral.whole, neutral.nothing]
    rfl

/-- A declaration without a side. -/
theorem neutral_declaration {typeName : String} (typed : typeName ∈ channelTypes)
    (named : isName name.toList) (side : ChannelSide) :
    Neutral side (typeName.toList ++ ' ' :: (name.toList ++ [';']))
      (declarationPieces typeName name) where
  fills := by
    intro rest pieces cleared
    have filled := @declaration_cleared "" (by decide) _ _ typed named (ne_empty_of_isName named)
      _ _ cleared
    simpa using filled
  whole := by
    rfl
  nothing := rfl

theorem cleared_lexemes {text : List Char} (apart : numbersApart (lexemes text)) :
    Cleared [] false text (lexemes text) :=
  ⟨splits_lexemes text, apart, occurs_empty (fun _ mem => (splits_lexemes text).ne_nil mem) false⟩

namespace Fronted

open Lowering

variable {side : ChannelSide} {names : List String} {source : String} {fixed : List String}
  {back : List Char} (fronted : Fronted side names source fixed back)

include fronted

theorem lexemes_eq : lexemes source.toList = fixed.flatMap lineLexemes ++ lexemes back := by
  rw [fronted.text, lexemes_lines fronted.fixedLines]

/-- What a source shows is its interface. -/
theorem interface_filter {expected : List InterfaceVariable}
    (shows : Shows side name expected fixed back) :
    (interface side source).filter (·.name == name) = expected := by
  rw [interface_eq, fronted.lexemes_eq, declaredIn_append (whole_lines fronted.fixedLines),
    declaredIn_lines fronted.fixedLines, filter_append, shows.front, Lacks.filter.mp shows.lacks,
    append_nil]

/-! Cutting out a declaration. -/

theorem declarationCut (typed : target.typeName ∈ channelTypes)
    (found : declarationCut? target source = .ok (some cut)) :
    ∃ before, cut.before = linesText fixed ++ before ∧
      back = before ++ (cut.declaration ++ cut.after) := by
  have whole := declarationCut?_whole found
  have front : ∃ before, cut.before = linesText fixed ++ before := by
    rw [declarationCut?] at found
    cases spans : Definition.ofSource source with
    | error fault =>
      rw [spans] at found
      cases found
    | ok defns =>
      rw [spans] at found
      obtain ⟨first, search, rfl⟩ := Option.map_eq_some_iff.mp (Except.ok.inj found)
      have listed := mem_of_find?_eq_some search
      rw [findAll, fronted.text] at listed
      obtain ⟨last, same⟩ := findAllFrom_lines fronted.fixedLines typed back none 0
      rw [same] at listed
      have behind := (findAllFrom_bounds listed).1
      rw [Nat.zero_add] at behind
      refine ⟨back.take (first.start - (linesText fixed).length), ?_⟩
      show source.toList.take first.start = _
      rw [fronted.text, take_append, take_of_length_le behind]
  obtain ⟨before, shape⟩ := front
  refine ⟨before, shape, ?_⟩
  rw [fronted.text, shape, append_assoc] at whole
  exact append_cancel_left whole

/-- A cut between tokens, behind the fixed lines. -/
theorem cut_alone {before : List Char} (alone : cut.standsAlone)
    (front : cut.before = linesText fixed ++ before)
    (behind : back = before ++ (cut.declaration ++ cut.after))
    (whole : isWhole side (lexemes cut.before))
    (closed : (lexemes cut.declaration).foldl directiveAfter false = false)
    (neutral : Neutral side filling added) :
    numbersApart (lexemes (before ++ (filling ++ cut.after))) ∧
      ∀ name, Lacks side name (lexemes back) →
        Lacks side name (lexemes (before ++ (filling ++ cut.after))) := by
  simp only [Cut.standsAlone, joins, Bool.and_eq_true, beq_iff_eq] at alone
  obtain ⟨⟨⟨settledBefore, joinsBefore⟩, joinsAfter⟩, -⟩ := alone
  rw [front, lexemes_lines fronted.fixedLines] at settledBefore whole joinsBefore
  rw [append_assoc, lexemes_lines fronted.fixedLines, ← behind, joinsAfter,
    append_assoc] at joinsBefore
  have backPieces := append_cancel_left joinsBefore
  have isSettled : settled (lexemes before) := by
    rw [settled_append] at settledBefore
    split at settledBefore
    next nothing => rw [nothing]; rfl
    · exact settledBefore
  rw [isWhole_append (whole_lines fronted.fixedLines)] at whole
  have apart := fronted.apart
  rw [backPieces] at apart
  obtain ⟨apartBefore, apartRest⟩ := numbersApart_parts apart
  have filled := neutral.fills _ _ (cleared_lexemes (numbersApart_parts apartRest).2)
  have pieces := ((splits_lexemes before).append isSettled filled.splits).lexemes_eq
  rw [pieces]
  refine ⟨?_, ?_⟩
  · rw [numbersApart_append isSettled, apartBefore, filled.apart]
    rfl
  · intro name lacks
    rw [backPieces] at lacks
    refine lacks.cut whole closed neutral.whole ?_
    intro found absurdity
    rw [neutral.nothing] at absurdity
    cases absurdity

/-- A change of comments behind the fixed lines. -/
theorem cut_comments {other : List Char} (comments : differInComments source result)
    (text : result.toList = linesText fixed ++ other) :
    numbersApart (lexemes other) ∧
      ∀ name, Lacks side name (lexemes back) → Lacks side name (lexemes other) := by
  have same := beq_iff_eq.mp comments
  rw [fronted.lexemes_eq, text, lexemes_lines fronted.fixedLines, map_append, map_append] at same
  have backs := append_cancel_left same
  refine ⟨?_, ?_⟩
  · rw [← numbersApart_bleached, ← backs, numbersApart_bleached, fronted.apart]
  · intro name lacks
    rw [Lacks, ← declaredIn_bleached, ← backs, declaredIn_bleached]
    exact lacks

/-- A replaced declaration leaves the fixed lines and no declaration that was not there. -/
theorem replaceDeclaration {replacement : String} (typed : target.typeName ∈ channelTypes)
    (clean : replacesCleanly target replacement source)
    (outside : cutsOutside side target source)
    (neutral : ∀ cut : Cut, ∃ added, Neutral side (cut.filling replacement) added)
    (replaces : Sharing.replaceDeclaration target replacement source = .ok result) :
    ∃ other, Fronted side names result fixed other ∧
      ∀ name, Lacks side name (lexemes back) → Lacks side name (lexemes other) := by
  rcases replaceDeclaration_cases replaces with rfl | ⟨cut, found, text⟩
  · exact ⟨back, fronted, fun _ lacks => lacks⟩
  · obtain ⟨before, front, behind⟩ := fronted.declarationCut typed found
    obtain ⟨added, neutral⟩ := neutral cut
    rw [Cut.replaced, front, append_assoc] at text
    have edited : numbersApart (lexemes (before ++ (cut.filling replacement ++ cut.after))) ∧
        ∀ name, Lacks side name (lexemes back) →
          Lacks side name (lexemes (before ++ (cut.filling replacement ++ cut.after))) := by
      rcases Bool.or_eq_true_iff.mp clean with alone | comments
      · rw [found] at alone
        rw [cutsOutside, found, Bool.and_eq_true, Bool.not_eq_true'] at outside
        exact fronted.cut_alone alone front behind outside.1 outside.2 neutral
      · rw [replaces] at comments
        exact fronted.cut_comments comments text
    exact ⟨_, ⟨text, fronted.fixedLines, edited.1⟩, edited.2⟩

/-! Redirecting references. -/

theorem redirectReferences (listed : name ∈ names) (avoids : Channel.Avoids channel [])
    (channelOther : channel.name ≠ side.word) :
    ∃ other, Fronted side names (Sharing.redirectReferences name channel source) fixed other ∧
      ∀ wanted, (∀ old, Renames name channel old wanted → Lacks side old (lexemes back)) →
        Lacks side wanted (lexemes other) := by
  have base := base_lines fronted.fixedLines listed
  obtain ⟨other, pieces, _, text, splits, apart, redirected⟩ := redirectReferences_front avoids
    fronted.text base.isSettled base.apart fronted.apart base.absent
  have same := splits.lexemes_eq
  refine ⟨other, ⟨text, fronted.fixedLines, by rw [same, apart]⟩, ?_⟩
  grind [Lacks.redirected]

/-! Putting in a line. -/

theorem insertLine {first second : List String} {line result : String}
    (parts : fixed = first ++ second) (isFixed : FixedLine side names line)
    (text : result.toList = linesText (first ++ line :: second) ++ back) :
    Fronted side names result (first ++ line :: second) back := by
  refine ⟨text, ?_, fronted.apart⟩
  intro other mem
  rcases mem_append.mp mem with before | after
  · exact fronted.fixedLines other (by rw [parts]; exact mem_append_left _ before)
  · rcases mem_cons.mp after with rfl | later
    · exact isFixed
    · exact fronted.fixedLines other (by rw [parts]; exact mem_append_right _ later)

end Fronted

theorem Shows.insertLine {name line : String} {expected : List InterfaceVariable}
    {first second : List String} {back : List Char}
    (shows : Shows side name expected (first ++ second) back)
    (alone : expected = [] ∨ (declaredIn side (lineLexemes line)).filter (·.name == name) = []) :
    Shows side name (expected ++ (declaredIn side (lineLexemes line)).filter (·.name == name))
      (first ++ line :: second) back := by
  refine ⟨?_, shows.lacks⟩
  have front := shows.front
  rw [flatMap_append, filter_append] at front
  rw [flatMap_append, flatMap_cons, filter_append, filter_append]
  rcases alone with rfl | nothing
  · obtain ⟨firstNone, secondNone⟩ := append_eq_nil_iff.mp front
    rw [firstNone, secondNone, append_nil]
  · rw [nothing, nil_append, append_nil, front]

/-! Where the line is put in. -/

def isWholeLine (side : ChannelSide) (names : List String) (line : String) : Bool :=
  settled (lineLexemes line) && numbersApart (lineLexemes line) &&
    isWhole side (lineLexemes line) &&
    names.all fun name => !occurs name.toList false (lineLexemes line)

def headerHolds (side : ChannelSide) (names : List String) (source : String) : Bool :=
  ((lines source).takeWhile isHeaderLine).all (isWholeLine side names)

theorem toList_join_lines (fixed : List String) :
    (String.join (fixed.map (· ++ "\n"))).toList = linesText fixed := by
  induction fixed with
  | nil => simp [linesText]
  | cons line rest ih =>
    rw [map_cons, String.join_cons, String.toList_append, ih,
      linesText_cons, String.toList_append, append_assoc]
    rfl

theorem headerText_eq (source : String) :
    headerText source = linesText ((lines source).takeWhile isHeaderLine) :=
  toList_join_lines _

theorem fixedLine_header (holds : headerHolds side names source) :
    ∀ line ∈ (lines source).takeWhile isHeaderLine, FixedLine side names line := by
  intro line mem
  have whole := all_eq_true.mp holds line mem
  simp only [isWholeLine, Bool.and_eq_true, all_eq_true, Bool.not_eq_true'] at whole
  obtain ⟨⟨⟨isSettled, apart⟩, isWhole⟩, absent⟩ := whole
  have header : isHeaderLine line := all_eq_true.mp all_takeWhile line mem
  have listed := (List.takeWhile_prefix _).subset mem
  refine ⟨not_mem_of_mem_lines listed, ?_, isSettled, apart, isWhole, absent⟩
  · rw [isMarked, startsWithAny_append, headerLine_starts header, Bool.true_or]

theorem lines_linesText (single : ∀ line ∈ fixed, '\n' ∉ line.toList)
    (text : source.toList = linesText fixed ++ back) :
    lines source = fixed ++ lines (String.ofList back) := by
  induction fixed generalizing source with
  | nil =>
    rw [← String.ofList_toList (s := source), text]
    rfl
  | cons line rest ih =>
    obtain ⟨first, others⟩ := forall_mem_cons.mp single
    have shape : source = line ++ "\n" ++ String.ofList (linesText rest ++ back) := by
      apply String.toList_inj.mp
      rw [text, linesText_cons]
      simp
    rw [shape, lines_append _ first, ih others String.toList_ofList, cons_append]

/-- Fixed lines go beyond the header, if there are any. -/
def GoesBeyond (fixed : List String) : Prop :=
  fixed = [] ∨ ∃ line ∈ fixed, isHeaderLine line = false

/-- The fixed lines of a source, parted where its header ends. -/
theorem Fronted.exists_parts (fronted : Fronted side names source fixed back)
    (beyond : GoesBeyond fixed) (holds : headerHolds side names source)
    (present : (lines source).dropWhile isHeaderLine ≠ []) :
    ∃ first second other, Fronted side names source (first ++ second) other ∧
      headerText source = linesText first ∧ bodyText source = linesText second ++ other ∧
      fixed ⊆ first ++ second ∧
      ∀ name expected, Shows side name expected fixed back →
        Shows side name expected (first ++ second) other := by
  rcases beyond with rfl | ⟨line, listed, notHeader⟩
  · -- without fixed lines the header becomes their start
    have text := header_body present
    rw [headerText_eq] at text
    have fixedLines := fixedLine_header holds
    have pieces := lexemes_lines fixedLines (bodyText source)
    have whole := fronted.lexemes_eq
    rw [text, pieces, flatMap_nil, nil_append] at whole
    have apart := fronted.apart
    rw [← whole] at apart
    refine ⟨_, [], bodyText source, ⟨by rw [append_nil]; exact text, by
      rw [append_nil]; exact fixedLines, (numbersApart_parts apart).2⟩, headerText_eq source,
      rfl, nil_subset _, ?_⟩
    intro name expected shows
    obtain rfl : [] = expected := shows.front
    have lacks := shows.lacks
    rw [← whole] at lacks
    obtain ⟨front, body⟩ := (lacks_append (whole_lines fixedLines)).mp lacks
    rw [append_nil]
    exact ⟨by rw [← declaredIn_lines fixedLines, Lacks.filter.mp front], body⟩
  · -- the header ends within the fixed lines
    have parted := lines_linesText (fun other mem => (fronted.fixedLines other mem).single)
      fronted.text
    have shorter : fixed.takeWhile isHeaderLine ≠ fixed := by
      intro all
      rw [← all] at listed
      have header := all_eq_true.mp all_takeWhile line listed
      rw [notHeader] at header
      cases header
    have further : fixed.dropWhile isHeaderLine ≠ [] := by
      intro nothing
      have whole := @List.takeWhile_append_dropWhile _ isHeaderLine fixed
      rw [nothing, append_nil] at whole
      exact shorter whole
    refine ⟨fixed.takeWhile isHeaderLine, fixed.dropWhile isHeaderLine, back, ?_⟩
    rw [takeWhile_append_dropWhile, headerText_eq, bodyText, parted, takeWhile_append,
      if_neg (fun same => shorter ((List.takeWhile_prefix _).eq_of_length same)),
      dropWhile_append, if_neg (by simpa using further),
      unlines_append _ (lines_ne_nil _), unlines_lines, String.toList_append, toList_join_lines,
      String.toList_ofList]
    grind

/-- A channel that is declared goes in front of all other declarations. -/
theorem Fronted.insertChannel (fronted : Fronted side names source fixed back)
    (beyond : GoesBeyond fixed) (typed : channel.typeName ∈ channelTypes)
    (named : isName channel.name.toList) (free : ∀ name ∈ names, name ∉ reservedWords)
    (ne : channel.name ∉ names) (stands : headerStands source)
    (holds : headerHolds side names source) (modern : Bool) :
    ∃ later other, Fronted side names
        (insertDeclarations source [channelDeclaration modern side channel]) later other ∧
      GoesBeyond later ∧ channelDeclaration modern side channel :: fixed ⊆ later ∧
      (∀ name expected, name ≠ channel.name → Shows side name expected fixed back →
        Shows side name expected later other) ∧
      (Shows side channel.name [] fixed back →
        Shows side channel.name [channelVariable modern channel] later other) := by
  have present : (lines source).dropWhile isHeaderLine ≠ [] := by
    simp only [headerStands, Bool.and_eq_true, Bool.not_eq_true', isEmpty_eq_false_iff] at stands
    exact stands.1.1.1
  obtain ⟨first, second, other, parted, header, body, holdsOld, keeps⟩ :=
    fronted.exists_parts beyond holds present
  have line := fixedLine_channel typed named modern side free ne
  have declared : declaredIn side (lineLexemes (channelDeclaration modern side channel)) =
      [channelVariable modern channel] := by
    rw [lineLexemes_channel typed named, declaredIn_channel]
  refine ⟨first ++ channelDeclaration modern side channel :: second, other,
    parted.insertLine rfl line ?_, .inr ⟨channelDeclaration modern side channel, by simp,
      channelDeclaration_notHeader modern side⟩, ?_, ?_, ?_⟩
  · rw [insertDeclarations_eq present, header, body, linesText_append, linesText_cons]
    simp
  · grind
  · intro name expected apart shows
    have elsewhere : (declaredIn side (lineLexemes
        (channelDeclaration modern side channel))).filter (·.name == name) = [] := by
      rw [declared]
      simpa [channelVariable] using apart.symm
    have inserted := (keeps name expected shows).insertLine (.inr elsewhere)
    rwa [elsewhere, append_nil] at inserted
  · intro shows
    have inserted := @Shows.insertLine _ _ (channelDeclaration modern side channel) _ _ _ _
      (keeps _ _ shows) (.inl rfl)
    rw [declared] at inserted
    simpa [channelVariable] using inserted

end WebShader.Sharing
