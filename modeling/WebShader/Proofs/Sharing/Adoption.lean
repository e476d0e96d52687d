import WebShader.Proofs.Sharing.Redirection
import WebShader.Proofs.Text.Lines
import WebShader.Proofs.Text.Reading
import WebShader.Sharing.Resolution

/-!
Contract: the declarations of a stage that takes over a channel.

Owns: where the declaration of a global is cut out and where that of a channel
is put in, and that neither brings back a mention.

Declarations are found by their lines and not by their tokens. A declaration
that starts or ends within a comment may leave code behind that was a comment
before, so both ends have to be ends of tokens.
-/

namespace WebShader.Sharing

open List Token
open Text

variable {channel : Channel} {target : GlobalVariable} {pieces : List Lexeme}
  {name result source unwanted : String}
  {text : List Char} {replacement word : String} {side : ChannelSide}

/-! Cutting out a declaration. -/

/-- A source around a declaration in it. -/
structure Cut where
  before : List Char
  declaration : List Char
  after : List Char
  deriving DecidableEq, Repr

namespace Cut

def ofFound {α : Type} (source : String) (found : Found α) : Cut where
  before := source.toList.take found.start
  declaration := (source.toList.drop found.start).take (found.stop - found.start)
  after := source.toList.drop found.stop

/-- What a replacement leaves of the line end. -/
def filling (cut : Cut) (replacement : String) : List Char :=
  if cut.declaration.getLast? == some '\n' then replacement.toList
  else trimEndWhere (· == '\n') replacement.toList

def replaced (cut : Cut) (replacement : String) : List Char :=
  cut.before ++ (cut.filling replacement ++ cut.after)

end Cut

/-- The source around the first declaration of a global outside all definitions. -/
def declarationCut? (target : GlobalVariable) (source : String) : Except Fault (Option Cut) := do
  let masks := Definition.spanSet (← Definition.ofSource source)
  let found := (findAll lineStart (Declaration.declarationLine target) source).find? fun found =>
    !masks.contains found.start
  return found.map (Cut.ofFound source)

theorem declarationCut?_whole {cut : Cut} (found : declarationCut? target source = .ok (some cut)) :
    source.toList = cut.before ++ (cut.declaration ++ cut.after) := by
  rw [declarationCut?] at found
  cases spans : Definition.ofSource source with
  | error fault =>
    rw [spans] at found
    cases found
  | ok defns =>
    rw [spans] at found
    obtain ⟨first, search, rfl⟩ := Option.map_eq_some_iff.mp (Except.ok.inj found)
    have order := (findAllFrom_bounds (mem_of_find?_eq_some search)).2
    have rest : (source.toList.drop first.start).drop (first.stop - first.start) =
        source.toList.drop first.stop := by
      rw [drop_drop, Nat.add_sub_cancel' order]
    show source.toList = source.toList.take first.start ++ (_ ++ source.toList.drop first.stop)
    rw [← rest]
    show _ = _ ++ ((source.toList.drop first.start).take (first.stop - first.start) ++ _)
    rw [take_append_drop, take_append_drop]

/-- A replaced declaration, by the cut. -/
theorem replaceDeclaration_cases
    (replaces : replaceDeclaration target replacement source = .ok result) :
    result = source ∨ ∃ cut, declarationCut? target source = .ok (some cut) ∧
      result.toList = cut.replaced replacement := by
  rw [replaceDeclaration, Declaration.replace?] at replaces
  cases spans : Definition.ofSource source with
  | error fault =>
    rw [spans] at replaces
    cases replaces
  | ok defns =>
    rw [spans] at replaces
    cases search : (findAll lineStart (Declaration.declarationLine target) source).find?
        fun found => !(Definition.spanSet defns).contains found.start with
    | none =>
      left
      have unchanged := Except.ok.inj replaces
      rw [search] at unchanged
      exact unchanged.symm
    | some found =>
      right
      refine ⟨.ofFound source found, ?_, ?_⟩
      · rw [declarationCut?, spans]
        show Except.ok (Option.map _ (List.find? _ _)) = _
        rw [search]
        rfl
      · have changed := Except.ok.inj replaces
        rw [search] at changed
        rw [← changed]
        show (slice source 0 found.start ++
          (if (slice source found.start found.stop).toList.getLast? == some '\n' then replacement
            else String.ofList (trimEndWhere (· == '\n') replacement.toList)) ++
          String.ofList (source.toList.drop found.stop)).toList = _
        grind [slice, Cut.ofFound, String.toList_ofList, String.toList_append, append_assoc, Cut.replaced, Cut.filling]

/-- Whether two texts have the same tokens together as alone. -/
def joins (front back : List Char) : Bool :=
  lexemes (front ++ back) == lexemes front ++ lexemes back

/-- Whether a cut is made between tokens: the declaration starts a line and ends
with a token, and no point is its last one. -/
def Cut.standsAlone (cut : Cut) : Bool :=
  settled (lexemes cut.before) && joins cut.before (cut.declaration ++ cut.after) &&
    joins cut.declaration cut.after && !selectsAfter true (lexemes cut.declaration)

theorem selectsAfter_false_of_true (plain : selectsAfter true pieces = false) (selects : Bool) :
    selectsAfter selects pieces = false := by
  cases selects with
  | true => exact plain
  | false =>
    induction pieces with
    | nil => rfl
    | cons piece rest ih =>
      rw [selectsAfter] at plain ⊢
      grind

/-- What is known of the text in front of a place where code is put in. -/
structure Base (unwanted before : List Char) : Prop where
  isSettled : settled (lexemes before) = true
  apart : numbersApart (lexemes before) = true
  absent : occurs unwanted false (lexemes before) = false

theorem Base.join {unwanted before : List Char} (base : Base unwanted before)
    (cleared : Cleared unwanted false text pieces) :
    Cleared unwanted false (before ++ text) (lexemes before ++ pieces) where
  splits := (splits_lexemes before).append base.isSettled cleared.splits
  apart := by rw [numbersApart_append base.isSettled, base.apart, cleared.apart]; rfl
  absent := by
    rw [occurs_append, base.absent, occurs_false_of_plain cleared.absent]
    rfl

/-- A source that keeps numbers apart and does not mention a name. -/
structure Clear (unwanted source : String) : Prop where
  apart : numbersApart (lexemes source.toList) = true
  absent : mentions unwanted source = false

theorem Cleared.clear (cleared : Cleared unwanted.toList false source.toList pieces) :
    Clear unwanted source := by
  have same := cleared.splits.lexemes_eq
  exact ⟨by rw [same, cleared.apart], by rw [mentions_eq, same, cleared.absent]⟩

/-- No source mentions the empty name. -/
theorem clear_empty (apart : numbersApart (lexemes source.toList)) : Clear "" source := by
  refine ⟨apart, ?_⟩
  rw [mentions_eq]
  exact occurs_empty (fun _ mem => (splits_lexemes source.toList).ne_nil mem) false

/-- Whether two sources differ in the texts of comments only. -/
def differInComments (first second : String) : Bool :=
  (lexemes first.toList).map bleached == (lexemes second.toList).map bleached

theorem Clear.of_comments {first second : String} (same : differInComments first second)
    (clear : Clear unwanted first) : Clear unwanted second := by
  have equal := beq_iff_eq.mp same
  have absent := clear.absent
  rw [mentions_eq, ← occurs_bleached, equal, occurs_bleached, ← mentions_eq] at absent
  refine ⟨?_, absent⟩
  rw [← numbersApart_bleached, ← equal, numbersApart_bleached, clear.apart]

theorem Clear.parts (clear : Clear unwanted source) {cut : Cut}
    (whole : source.toList = cut.before ++ (cut.declaration ++ cut.after))
    (alone : cut.standsAlone) :
    Base unwanted.toList cut.before ∧
      Cleared unwanted.toList false cut.after (lexemes cut.after) := by
  simp only [Cut.standsAlone, joins, Bool.and_eq_true, beq_iff_eq, Bool.not_eq_true'] at alone
  obtain ⟨⟨⟨settledBefore, joinsBefore⟩, joinsAfter⟩, plain⟩ := alone
  have pieces : lexemes source.toList =
      lexemes cut.before ++ (lexemes cut.declaration ++ lexemes cut.after) := by
    rw [whole, joinsBefore, joinsAfter]
  have apart := clear.apart
  have absent := clear.absent
  rw [pieces] at apart
  rw [mentions_eq, pieces, occurs_append, occurs_append, Bool.or_eq_false_iff,
    Bool.or_eq_false_iff, selectsAfter_false_of_true plain] at absent
  obtain ⟨apartBefore, apartRest⟩ := numbersApart_parts apart
  exact ⟨⟨settledBefore, apartBefore, absent.1⟩,
    ⟨splits_lexemes cut.after, (numbersApart_parts apartRest).2, absent.2.2⟩⟩

/-- Whether a declaration is replaced without touching other code. -/
def replacesCleanly (target : GlobalVariable) (replacement source : String) : Bool :=
  (match declarationCut? target source with
    | .ok (some cut) => cut.standsAlone
    | _ => true) ||
  (match replaceDeclaration target replacement source with
    | .ok replaced => differInComments source replaced
    | .error _ => true)

/-- A text that may be put in front of any other one without a mention. -/
def Fills (unwanted filling : List Char) : Prop :=
  ∀ rest pieces, Cleared unwanted false rest pieces →
    ∃ filled, Cleared unwanted false (filling ++ rest) filled

theorem Clear.replaceDeclaration (clear : Clear unwanted source)
    (clean : replacesCleanly target replacement source)
    (fills : ∀ cut : Cut, Fills unwanted.toList (cut.filling replacement))
    (replaces : Sharing.replaceDeclaration target replacement source = .ok result) :
    Clear unwanted result := by
  rcases Bool.or_eq_true_iff.mp clean with alone | comments
  · rcases replaceDeclaration_cases replaces with rfl | ⟨cut, found, text⟩
    · exact clear
    · rw [found] at alone
      obtain ⟨base, cleared⟩ := clear.parts (declarationCut?_whole found) alone
      obtain ⟨filled, filledCleared⟩ := fills cut _ _ cleared
      have joined := base.join filledCleared
      apply Cleared.clear
      rw [text]
      exact joined
  · rw [replaces] at comments
    exact clear.of_comments comments

/-! What is put in. -/

/-- The words that declarations of channels consist of, apart from names. -/
def reservedWords : List String :=
  ["flat", "out", "in"] ++ channelTypes

theorem isName_of_reserved : ∀ word ∈ reservedWords, isName word.toList := by
  decide

theorem ne_empty_of_isName (named : isName name.toList) : name ≠ "" := by
  rintro rfl
  cases named

theorem ne_of_reserved (free : unwanted ∉ reservedWords)
    (reserved : word ∈ reservedWords) : word.toList ≠ unwanted.toList := by
  intro same
  exact free (String.toList_inj.mp same ▸ reserved)

theorem channelType_mem (modern : Bool) : ∀ typeName ∈ channelTypes,
    channelType modern typeName ∈ channelTypes := by
  cases modern <;> decide

theorem reserved_of_channelType (mem : word ∈ channelTypes) : word ∈ reservedWords :=
  mem_append_right _ mem

theorem filling_empty (cut : Cut) : cut.filling "" = [] := by
  rw [Cut.filling]
  split <;> rfl

theorem Clear.removeDeclaration (clear : Clear unwanted source)
    (clean : replacesCleanly target "" source)
    (removes : Sharing.replaceDeclaration target "" source = .ok result) :
    Clear unwanted result := by
  refine clear.replaceDeclaration clean ?_ removes
  intro cut rest pieces cleared
  rw [filling_empty]
  exact ⟨pieces, cleared⟩

theorem isCarriable_parts (carriable : isCarriable target) :
    target.arraySuffix = "" ∧ target.typeName ∈ channelTypes := by
  simp only [isCarriable, Bool.and_eq_true, contains_eq_mem, decide_eq_true_eq,
    String.isEmpty_iff] at carriable
  exact carriable

/-- A bare declaration in the place of another one, with the line end or without it. -/
theorem filling_bare (carriable : isCarriable target) (cut : Cut) :
    cut.filling (target.bareDeclaration ++ "\n") =
        target.typeName.toList ++ ' ' :: (target.name.toList ++ [';']) ++ ['\n'] ∨
      cut.filling (target.bareDeclaration ++ "\n") =
        target.typeName.toList ++ ' ' :: (target.name.toList ++ [';']) := by
  have text : (target.bareDeclaration ++ "\n").toList =
      target.typeName.toList ++ ' ' :: (target.name.toList ++ [';']) ++ ['\n'] := by
    simp [GlobalVariable.bareDeclaration, (isCarriable_parts carriable).1]
  rw [Cut.filling, text]
  split
  · exact .inl rfl
  · exact .inr (by simp [trimEndWhere])

def declarationPieces (typeName name : String) : List Lexeme :=
  [⟨.ident, typeName.toList⟩, ⟨.whitespace, [' ']⟩, ⟨.ident, name.toList⟩, ⟨.punct, [';']⟩]

def channelPieces (modern : Bool) (side : ChannelSide) (channel : Channel) : List Lexeme :=
  (if modern && integerTypes.contains channel.typeName then
    [⟨.ident, "flat".toList⟩, ⟨.whitespace, [' ']⟩]
  else []) ++ ⟨.ident, side.word.toList⟩ :: ⟨.whitespace, [' ']⟩ ::
    declarationPieces channel.typeName channel.name

section Declarations

variable {unwanted : String} (free : unwanted ∉ reservedWords)

include free

theorem declaration_cleared {typeName name : String} (reserved : typeName ∈ channelTypes)
    (named : isName name.toList) (ne : name ≠ unwanted) {rest : List Char}
    {pieces : List Lexeme} (cleared : Cleared unwanted.toList false rest pieces) :
    Cleared unwanted.toList false (typeName.toList ++ ' ' :: (name.toList ++ ';' :: rest))
      (declarationPieces typeName name ++ pieces) := by
  have listed := reserved_of_channelType reserved
  have stopped := cleared.bracket (show standsAlone ';' = true by decide)
  have withName := stopped.name named (fun same => ne (String.toList_inj.mp same)) rfl
  exact withName.word (isName_of_reserved _ listed) (ne_of_reserved free listed)
    (blankLength_startsName (isName.startsName named _))

theorem fills_declaration {typeName : String} (reserved : typeName ∈ channelTypes)
    (named : isName name.toList) (ne : name ≠ unwanted) :
    Fills unwanted.toList (typeName.toList ++ ' ' :: (name.toList ++ [';'])) := by
  intro rest pieces cleared
  simp only [append_assoc, cons_append]
  exact ⟨_, declaration_cleared free reserved named ne cleared⟩

theorem Clear.bareDeclaration (carriable : isCarriable target)
    (named : isName target.name.toList) (ne : target.name ≠ unwanted)
    (clear : Clear unwanted source)
    (clean : replacesCleanly target (target.bareDeclaration ++ "\n") source)
    (replaces : Sharing.replaceDeclaration target (target.bareDeclaration ++ "\n") source =
      .ok result) : Clear unwanted result := by
  have typed : target.typeName ∈ channelTypes := (isCarriable_parts carriable).2
  have fills := fills_declaration free typed named ne
  refine clear.replaceDeclaration clean ?_ replaces
  intro cut rest pieces cleared
  rcases filling_bare carriable cut with filling | filling
  · rw [filling, append_assoc]
    exact fills _ _ cleared.lineEnd
  · rw [filling]
    exact fills _ _ cleared

theorem channelDeclaration_cleared (reserved : channel.typeName ∈ channelTypes)
    (named : isName channel.name.toList) (ne : channel.name ≠ unwanted)
    (modern : Bool) (side : ChannelSide) {rest : List Char}
    (cleared : Cleared unwanted.toList false rest pieces) :
    Cleared unwanted.toList false ((channelDeclaration modern side channel).toList ++ rest)
      (channelPieces modern side channel ++ pieces) := by
  have word : ∀ {word : String} {text : List Char} {lexemes : List Lexeme}, word ∈ reservedWords →
      startsName text → Cleared unwanted.toList false text lexemes →
      Cleared unwanted.toList false (word.toList ++ ' ' :: text)
        (⟨.ident, word.toList⟩ :: ⟨.whitespace, [' ']⟩ :: lexemes) := by
    intro word text lexemes listed starts textCleared
    exact textCleared.word (isName_of_reserved _ listed) (ne_of_reserved free listed)
      (blankLength_startsName starts)
  have declared := declaration_cleared free reserved named ne cleared
  have typeStarts := isName.startsName (isName_of_reserved _ (reserved_of_channelType reserved))
  have sideListed : side.word ∈ reservedWords := by cases side <;> decide
  have sideCleared := word sideListed (typeStarts _) declared
  have text : (channelDeclaration modern side channel).toList ++ rest =
      (if modern && integerTypes.contains channel.typeName then "flat " else "").toList ++
        (side.word.toList ++ ' ' :: (channel.typeName.toList ++
          ' ' :: (channel.name.toList ++ ';' :: rest))) := by
    simp [channelDeclaration]
  rw [text, channelPieces]
  split
  · exact @word "flat" _ _ (by decide) (isName.startsName (isName_of_reserved _ sideListed) _)
      sideCleared
  · exact sideCleared

theorem fills_channelDeclaration (reserved : channel.typeName ∈ channelTypes)
    (named : isName channel.name.toList) (ne : channel.name ≠ unwanted)
    (modern : Bool) (side : ChannelSide) :
    Fills unwanted.toList (channelDeclaration modern side channel).toList :=
  fun _ _ cleared =>
    ⟨_, channelDeclaration_cleared free reserved named ne modern side cleared⟩

end Declarations

/-! Putting in the declaration of a channel. -/

def headerText (source : String) : List Char :=
  (String.join (((lines source).takeWhile Lowering.isHeaderLine).map (· ++ "\n"))).toList

def bodyText (source : String) : List Char :=
  (unlines ((lines source).dropWhile Lowering.isHeaderLine)).toList

/-- Whether there is a line behind the header lines, and the header ends with a line. -/
def headerStands (source : String) : Bool :=
  !((lines source).dropWhile Lowering.isHeaderLine).isEmpty &&
    settled (lexemes (headerText source)) && joins (headerText source) (bodyText source) &&
    !selectsAfter false (lexemes (headerText source))

theorem header_body (present : (lines source).dropWhile Lowering.isHeaderLine ≠ []) :
    source.toList = headerText source ++ bodyText source := by
  grind [unlines_append, takeWhile_append_dropWhile, unlines_lines, headerText, bodyText, String.toList_append]

theorem insertDeclarations_eq (present : (lines source).dropWhile Lowering.isHeaderLine ≠ [])
    (decl : String) :
    (Lowering.insertDeclarations source [decl]).toList =
      headerText source ++ (decl.toList ++ '\n' :: bodyText source) := by
  have whole := unlines_append ((lines source).takeWhile Lowering.isHeaderLine ++ [decl]) present
  rw [Lowering.insertDeclarations]
  rw [whole]
  simp [headerText, bodyText]

/-- Whether a channel is declared, or its declaration falls between tokens. -/
def declaresCleanly (side : ChannelSide) (channel : Channel) (source : String) : Bool :=
  isDeclared side channel source || headerStands source

theorem Clear.declareChannel
    (fills : ∀ modern, Fills unwanted.toList (channelDeclaration modern side channel).toList)
    (clear : Clear unwanted source) (clean : declaresCleanly side channel source)
    (modern : Bool) : Clear unwanted (Sharing.declareChannel modern side channel source) := by
  rw [Sharing.declareChannel]
  split
  · exact clear
  next undeclared =>
    rw [declaresCleanly, Bool.or_eq_true] at clean
    have stands := clean.resolve_left undeclared
    simp only [headerStands, joins, Bool.and_eq_true, Bool.not_eq_true', beq_iff_eq,
      isEmpty_eq_false_iff] at stands
    obtain ⟨⟨⟨present, settledHeader⟩, joined⟩, plain⟩ := stands
    have apart := clear.apart
    have absent := clear.absent
    rw [header_body present, joined] at apart
    rw [mentions_eq, header_body present, joined, occurs_append, plain,
      Bool.or_eq_false_iff] at absent
    obtain ⟨apartHeader, apartBody⟩ := numbersApart_parts apart
    have base : Base unwanted.toList (headerText source) := ⟨settledHeader, apartHeader, absent.1⟩
    have body : Cleared unwanted.toList false (bodyText source) (lexemes (bodyText source)) :=
      ⟨splits_lexemes _, apartBody, absent.2⟩
    obtain ⟨filled, filledCleared⟩ := fills modern _ _ body.lineEnd
    apply Cleared.clear
    rw [insertDeclarations_eq present]
    exact base.join filledCleared

/-! A source that takes over a channel. -/

/-- Whether the declarations of a global and its channel are exchanged cleanly. -/
def adoptsCleanly (side : ChannelSide) (target : GlobalVariable) (channel : Channel)
    (source : String) : Bool :=
  replacesCleanly target "" source &&
    match replaceDeclaration target "" source with
    | .ok removed => declaresCleanly side channel (redirectReferences target.name channel removed)
    | .error _ => true

theorem adoptChannel_clear {modern : Bool} (avoids : Channel.Avoids channel unwanted.toList)
    (fills : ∀ modern, Fills unwanted.toList (channelDeclaration modern side channel).toList)
    (clean : adoptsCleanly side target channel source)
    (apart : numbersApart (lexemes source.toList))
    (known : unwanted = target.name ∨ mentions unwanted source = false)
    (adopts : adoptChannel modern side target channel source = .ok result) :
    Clear unwanted result := by
  rw [adoptChannel] at adopts
  cases removes : replaceDeclaration target "" source with
  | error fault =>
    rw [removes] at adopts
    cases adopts
  | ok removed =>
    rw [removes] at adopts
    obtain rfl := Except.ok.inj adopts
    rw [adoptsCleanly, removes, Bool.and_eq_true] at clean
    have redirected : Clear unwanted (redirectReferences target.name channel removed) := by
      rcases known with rfl | absent
      · have removedApart := ((clear_empty apart).removeDeclaration clean.1 removes).apart
        obtain ⟨apartNow, absentNow⟩ := redirectReferences_cleared avoids removedApart (.inl rfl)
        exact ⟨apartNow, absentNow⟩
      · have removedClear := Clear.removeDeclaration ⟨apart, absent⟩ clean.1 removes
        obtain ⟨apartNow, absentNow⟩ :=
          redirectReferences_cleared avoids removedClear.apart (.inr removedClear.absent)
        exact ⟨apartNow, absentNow⟩
    exact redirected.declareChannel fills clean.2 modern

/-- An assignment of a name or its conversion. -/
theorem mentions_assignment {left fn : String} (leftNamed : isName left.toList)
    (leftDifferent : left ≠ unwanted) (functionNamed : isName fn.toList)
    (functionDifferent : fn ≠ unwanted) (named : isName name.toList)
    (ne : name ≠ unwanted) (converts : Bool) :
    mentions unwanted (left ++ " = " ++
      (if converts then fn ++ "(" ++ name ++ ")" else name) ++ ";") = false := by
  have apart : ∀ {word : String}, word ≠ unwanted → word.toList ≠ unwanted.toList :=
    fun differs same => differs (String.toList_inj.mp same)
  have nothing : Cleared unwanted.toList false [] [] := ⟨.nil, rfl, rfl⟩
  have stopped := nothing.bracket (show standsAlone ';' = true by decide)
  obtain ⟨pieces, value, starts, -⟩ := stopped.converted functionNamed (apart functionDifferent) named
    (apart ne) rfl converts
  have assigned := (value.blank (blankLength_startsName starts)).equals (by simp)
  have whole := assigned.word leftNamed (apart leftDifferent) (by rfl)
  have text : (left ++ " = " ++
      (if converts then fn ++ "(" ++ name ++ ")" else name) ++ ";").toList =
        left.toList ++ ' ' :: '=' :: ' ' ::
          ((if converts then fn ++ "(" ++ name ++ ")" else name).toList ++ [';']) := by
    simp
  rw [mentions_eq, text, whole.splits.lexemes_eq]
  exact whole.absent

end WebShader.Sharing
