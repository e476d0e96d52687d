import WebShader.Proofs.Sharing.Interface

/-!
Contract: the lines in front of a source that no later edit changes.

Owns: how header lines and declarations of channels start, their lexemes, and
that the search for the declaration of a global passes over them.

Does not own: sources that start with such lines; those are `Fronted`.

A declaration of a global starts with its type or a precision, and none of the
fixed lines does. So what is cut out lies behind them.
-/

namespace WebShader.Sharing

open List Token Declaration
open Text

variable {target : GlobalVariable} {line : List Char}
  {words : List String} {text : List Char} {α : Type}

/-! How lines start. -/

def headerMarks : List String :=
  ["#", "precision"]

def declarationMarks : List String :=
  ["flat ", "out ", "in "]

def startsWithAny (words : List String) (text : List Char) : Bool :=
  words.any (·.toList.isPrefixOf text)

def areApart (words others : List String) : Bool :=
  words.all fun word => others.all fun other =>
    !word.toList.isPrefixOf other.toList && !other.toList.isPrefixOf word.toList

theorem startsWithAny_of_apart {others : List String} (apart : areApart words others)
    (starts : startsWithAny words text) :
    startsWithAny others text = false := by
  apply Bool.eq_false_iff.mpr
  intro startsOther
  obtain ⟨word, listed, isPrefix⟩ := any_eq_true.mp starts
  obtain ⟨other, otherListed, otherPrefix⟩ := any_eq_true.mp startsOther
  have ne := all_eq_true.mp (all_eq_true.mp apart word listed) other otherListed
  grind [List.prefix_or_prefix_of_prefix]

/-- Whether a line starts as a fixed one does. -/
def isMarked (line : List Char) : Bool :=
  startsWithAny (headerMarks ++ declarationMarks) (line.dropWhile isBlank)

theorem startsWithAny_append (words more : List String) (text : List Char) :
    startsWithAny (words ++ more) text = (startsWithAny words text || startsWithAny more text) :=
  any_append

/-- A reader that starts with a word fails on other texts. -/
theorem read?_literal_bind {word : String} {next : Unit → Reader α}
    (other : word.toList.isPrefixOf text = false) :
    (Reader.literal word >>= next).read? text = none := by
  have failed : (Reader.literal word).read? text = none := by
    show (afterPrefix? word.toList text).map _ = none
    rw [afterPrefix?, other]
    rfl
  rw [Reader.read?_bind, failed]
  rfl

theorem headerLine_starts {line : String} (header : Lowering.isHeaderLine line) :
    startsWithAny headerMarks (line.toList.dropWhile isBlank) := by
  apply Decidable.byContradiction
  intro other
  simp only [startsWithAny, headerMarks, any_cons, any_nil, Bool.or_false,
    Bool.or_eq_true, not_or, Bool.not_eq_true] at other
  have fails : (Reader.read? (Reader.blanks >>= fun _ =>
      (do
        Reader.literal "#"
        Reader.blanks
        let _ ← Reader.literalIn ["version", "extension"]
        Reader.wordEnd) <|>
      (do
        Reader.literal "precision"
        Reader.wordEnd)) line.toList).isSome := header
  rw [Reader.read?_bind, Reader.read?_blanks, Option.bind_some, Reader.read?_orElse,
    read?_literal_bind other.1, read?_literal_bind other.2] at fails
  cases fails

/-! Searching a declaration. -/

/-- The words that a declaration of a global may start with. -/
def openingWords : List String :=
  channelTypes ++ precisionQualifiers

theorem literalIn_bind {next : String → Reader α} (other : startsWithAny words text = false) :
    (Reader.literalIn words >>= next).read? text = none := by
  have failed : (Reader.literalIn words).read? text = none := by
    induction words with
    | nil => rfl
    | cons word rest ih =>
      rw [startsWithAny, any_cons, Bool.or_eq_false_iff] at other
      rw [Reader.literalIn, Reader.read?_orElse, ih other.2]
      have first : (Reader.literal word >>= fun _ => pure word).read? text = none :=
        read?_literal_bind other.1
      show ((Reader.literal word >>= fun _ => pure word).read? text <|> none) = none
      rw [first]
      rfl
  rw [Reader.read?_bind, failed]
  rfl

theorem typedPart_fails (typed : target.typeName ∈ channelTypes)
    (other : startsWithAny openingWords text = false) :
    (((do
      let _ ← Reader.literalIn precisionQualifiers
      Reader.afterSomeGap (typedPart target)) <|> typedPart target) :
        Reader (Option String)).read? text = none := by
  rw [openingWords, startsWithAny_append, Bool.or_eq_false_iff] at other
  have typeOther : target.typeName.toList.isPrefixOf text = false := by
    apply Bool.eq_false_iff.mpr
    intro starts
    rw [startsWithAny, any_eq_false] at other
    exact other.1 _ typed starts
  rw [Reader.read?_orElse, literalIn_bind other.2, typedPart,
    read?_literal_bind typeOther]
  rfl

theorem afterGap_fails {next : Reader α}
    (fails : ∀ text, startsWithAny words text = false → next.read? text = none)
    (solid : ∀ c rest, isBlank c → startsWithAny words (c :: rest) = false)
    (other : startsWithAny words (text.dropWhile isBlank) = false) :
    (Reader.afterGap next).read? text = none := by
  induction text with
  | nil => exact fails [] other
  | cons c rest ih =>
    have blank : Reader.isSpaceOrTab c → isBlank c := by
      intro space
      simp only [Reader.isSpaceOrTab, Bool.or_eq_true, beq_iff_eq] at space
      rcases space with rfl | rfl <;> decide
    have here : next.read? (c :: rest) = none := by
      apply fails
      cases isIt : isBlank c with
      | true => exact solid c rest isIt
      | false => rwa [dropWhile_cons_of_neg (by simp [isIt])] at other
    show (if Reader.isSpaceOrTab c then
      (Reader.afterGap next).read? rest <|> next.read? (c :: rest) else next.read? (c :: rest)) =
        none
    grind [dropWhile_cons_of_pos]

theorem openingWords_solid (c : Char) (rest : List Char) (blank : isBlank c) :
    startsWithAny openingWords (c :: rest) = false := by
  have solid : ∀ word ∈ openingWords, word.toList.head?.all isBlank = false := by decide
  rw [startsWithAny, any_eq_false]
  intro word listed starts
  have first := solid word listed
  cases shape : word.toList with
  | nil =>
    rw [shape] at first
    cases first
  | cons head others => grind

/-- No declaration of a global starts with a marked line. -/
theorem declarationLine_fails (typed : target.typeName ∈ channelTypes)
    (marked : isMarked text) : (declarationLine target).read? text = none := by
  apply afterGap_fails (fun _ => typedPart_fails typed) openingWords_solid
  exact startsWithAny_of_apart (by decide) marked

/-- Within a line no match starts. -/
theorem findAllFrom_inside (reader : Reader α) (single : '\n' ∉ line) {c : Char}
    (other : c ≠ '\n') (offset : Nat) (text : List Char) :
    findAllFrom lineStart reader (some c) offset 0 (line ++ '\n' :: text) =
      findAllFrom lineStart reader (some '\n') (offset + (line.length + 1)) 0 text := by
  have closed : ∀ {d : Char}, d ≠ '\n' → lineStart (some d) = false := by
    simpa [lineStart] using ne
  induction line generalizing c offset with
  | nil =>
    rw [nil_append, findAllFrom, closed other]
    rfl
  | cons d rest ih =>
    rw [cons_append, findAllFrom]
    grind

theorem findAllFrom_line {reader : Reader α} (present : line ≠ []) (single : '\n' ∉ line)
    (fails : reader.read? (line ++ '\n' :: text) = none) (prev : Option Char)
    (offset : Nat) :
    findAllFrom lineStart reader prev offset 0 (line ++ '\n' :: text) =
      findAllFrom lineStart reader (some '\n') (offset + (line.length + 1)) 0 text := by
  obtain ⟨c, rest, rfl⟩ := exists_cons_of_ne_nil present
  grind [findAllFrom, findAllFrom_inside]

/-! Fixed lines. -/

/-- The lexemes of a line with its end. -/
def lineLexemes (line : String) : List Lexeme :=
  lexemes (line.toList ++ ['\n'])

/-- A line that stays: it is whole for itself and mentions none of the given names. -/
structure FixedLine (side : ChannelSide) (names : List String) (line : String) : Prop where
  single : '\n' ∉ line.toList
  marked : isMarked line.toList = true
  isSettled : settled (lineLexemes line) = true
  apart : numbersApart (lineLexemes line) = true
  whole : isWhole side (lineLexemes line) = true
  absent : ∀ name ∈ names, occurs name.toList false (lineLexemes line) = false

theorem isMarked_front (marked : isMarked line) : line ≠ [] ∧ ∀ text, isMarked (line ++ text) := by
  have present : line.dropWhile isBlank ≠ [] := by
    intro nothing
    rw [isMarked, nothing] at marked
    exact absurd marked (by decide)
  refine ⟨?_, ?_⟩
  · rintro rfl
    exact present rfl
  · intro text
    rw [isMarked, dropWhile_append_of_ne_nil present]
    obtain ⟨word, listed, isPrefix⟩ := any_eq_true.mp marked
    refine any_eq_true.mpr ⟨word, listed, ?_⟩
    grind

def linesText (fixed : List String) : List Char :=
  fixed.flatMap fun line => line.toList ++ ['\n']

theorem linesText_cons (line : String) (rest : List String) :
    linesText (line :: rest) = line.toList ++ '\n' :: linesText rest := by
  rw [linesText, flatMap_cons, append_assoc]
  rfl

theorem linesText_append (fixed more : List String) :
    linesText (fixed ++ more) = linesText fixed ++ linesText more :=
  flatMap_append

theorem settled_append {pieces others : List Lexeme} :
    settled (pieces ++ others) = if others = [] then settled pieces else settled others := by
  rcases others.eq_nil_or_concat with rfl | ⟨front, last, rfl⟩
  · simp [settled]
  · simp [settled]

theorem Base.append {unwanted first second : List Char} (firstBase : Base unwanted first)
    (secondBase : Base unwanted second) : Base unwanted (first ++ second) := by
  have pieces := lexemes_append firstBase.isSettled second
  refine ⟨?_, ?_, ?_⟩
  · rw [pieces, settled_append, firstBase.isSettled, secondBase.isSettled, ite_self]
  · rw [pieces, numbersApart_append firstBase.isSettled, firstBase.apart, secondBase.apart]
    rfl
  · rw [pieces, occurs_append, firstBase.absent, occurs_false_of_plain secondBase.absent]
    rfl

section Lines

variable {side : ChannelSide} {names fixed : List String}
  (fixedLines : ∀ line ∈ fixed, FixedLine side names line)

include fixedLines

theorem lexemes_lines (back : List Char) :
    lexemes (linesText fixed ++ back) = fixed.flatMap lineLexemes ++ lexemes back := by
  induction fixed with
  | nil => rfl
  | cons line rest ih =>
    obtain ⟨first, others⟩ := forall_mem_cons.mp fixedLines
    have pieces := lexemes_append first.isSettled (linesText rest ++ back)
    rw [linesText, flatMap_cons, append_assoc]
    show lexemes (_ ++ (linesText rest ++ back)) = _
    rw [pieces, ih others, flatMap_cons, append_assoc]
    rfl

theorem base_lines {name : String} (listed : name ∈ names) : Base name.toList (linesText fixed) := by
  induction fixed with
  | nil =>
    have nothing : lexemes (linesText []) = [] := Splits.nil.lexemes_eq
    exact ⟨by rw [nothing]; rfl, by rw [nothing]; rfl, by rw [nothing]; rfl⟩
  | cons line rest ih =>
    obtain ⟨first, others⟩ := forall_mem_cons.mp fixedLines
    have base : Base name.toList (line.toList ++ ['\n']) :=
      ⟨first.isSettled, first.apart, first.absent name listed⟩
    exact base.append (ih others)

theorem whole_lines : isWhole side (fixed.flatMap lineLexemes) := by
  induction fixed with
  | nil => rfl
  | cons line rest ih =>
    obtain ⟨first, others⟩ := forall_mem_cons.mp fixedLines
    rw [flatMap_cons, isWhole_append first.whole, ih others]

theorem declaredIn_lines : declaredIn side (fixed.flatMap lineLexemes) =
    fixed.flatMap fun line => declaredIn side (lineLexemes line) := by
  induction fixed with
  | nil => rfl
  | cons line rest ih =>
    obtain ⟨first, others⟩ := forall_mem_cons.mp fixedLines
    rw [flatMap_cons, declaredIn_append first.whole, ih others, flatMap_cons]

/-- The declaration of a global that is found lies behind the lines. -/
theorem findAllFrom_lines (typed : target.typeName ∈ channelTypes) (back : List Char)
    (prev : Option Char) (offset : Nat) :
    ∃ last, findAllFrom lineStart (declarationLine target) prev offset 0
        (linesText fixed ++ back) =
      findAllFrom lineStart (declarationLine target) last
        (offset + (linesText fixed).length) 0 back := by
  induction fixed generalizing prev offset with
  | nil => exact ⟨prev, rfl⟩
  | cons line rest ih =>
    obtain ⟨first, others⟩ := forall_mem_cons.mp fixedLines
    obtain ⟨present, marked⟩ := isMarked_front first.marked
    obtain ⟨last, found⟩ := ih others (some '\n') (offset + (line.toList.length + 1))
    refine ⟨last, ?_⟩
    rw [linesText_cons, append_assoc, cons_append,
      findAllFrom_line present first.single (declarationLine_fails typed (marked _)), found,
      length_append, length_cons, Nat.add_assoc, Nat.add_assoc, Nat.add_comm 1]

end Lines

/-! The line that declares a channel. -/

def channelVariable (modern : Bool) (channel : Channel) : InterfaceVariable :=
  ⟨modern && integerTypes.contains channel.typeName, channel.typeName, channel.name⟩

/-- The lexemes of the line that declares a channel. -/
def channelLine (modern : Bool) (side : ChannelSide) (channel : Channel) : List Lexeme :=
  channelPieces modern side channel ++ [⟨.newline, ['\n']⟩]

section ChannelLine

variable {channel : Channel} (typed : channel.typeName ∈ channelTypes)
  (named : isName channel.name.toList = true) (modern : Bool) (side : ChannelSide)

theorem codePieces_channel :
    codePieces false (channelLine modern side channel) =
      (if modern && integerTypes.contains channel.typeName then
        [(⟨.ident, "flat".toList⟩ : Lexeme)] else []) ++
        [⟨.ident, side.word.toList⟩, ⟨.ident, channel.typeName.toList⟩,
          ⟨.ident, channel.name.toList⟩, ⟨.punct, [';']⟩] := by
  rw [channelLine, channelPieces]
  split <;> rfl

theorem isWhole_channel : isWhole side (channelLine modern side channel) := by
  have closed : (channelLine modern side channel).foldl directiveAfter false = false := by
    rw [channelLine, foldl_append]
    rfl
  have ends : ∀ (reading : Reading) (front : List Lexeme),
      reading.after side (front ++ [⟨.ident, side.word.toList⟩, ⟨.ident, channel.typeName.toList⟩,
        ⟨.ident, channel.name.toList⟩, ⟨.punct, [';']⟩]) = .idle := by
    intro reading front
    rw [Reading.after, foldl_append]
    exact Reading.step_of_not_ident side _ (by decide)
  rw [isWhole, closed, codePieces_channel, ends]
  rfl

theorem declaredIn_channel :
    declaredIn side (channelLine modern side channel) = [channelVariable modern channel] := by
  have declares : ∀ reading : Reading, reading.declares side [⟨.ident, side.word.toList⟩,
      ⟨.ident, channel.typeName.toList⟩, ⟨.ident, channel.name.toList⟩, ⟨.punct, [';']⟩] =
        [⟨reading.afterFlat, channel.typeName, channel.name⟩] := by
    intro reading
    have read : (((reading.step side ⟨.ident, side.word.toList⟩).step side
        ⟨.ident, channel.typeName.toList⟩).step side ⟨.ident, channel.name.toList⟩).named =
          some ⟨reading.afterFlat, channel.typeName, channel.name⟩ := by
      simp [Reading.step]
    rw [declares_word, declares_word, declares_word, Reading.declares, Reading.declared?,
      read]
    rfl
  rw [declaredIn, codePieces_channel, channelVariable]
  split
  next flat => rw [singleton_append, declares_word, declares, flat]; rfl
  next notFlat =>
    rw [nil_append, declares, Bool.eq_false_iff.mpr notFlat]
    rfl

include typed named in
theorem channelLine_cleared {unwanted : String} (free : unwanted ∉ reservedWords)
    (ne : channel.name ≠ unwanted) :
    Cleared unwanted.toList false ((channelDeclaration modern side channel).toList ++ ['\n'])
      (channelLine modern side channel) := by
  have nothing : Cleared unwanted.toList false [] [] := ⟨.nil, rfl, rfl⟩
  exact channelDeclaration_cleared free typed named ne modern side nothing.lineEnd

include typed named in
theorem lineLexemes_channel :
    lineLexemes (channelDeclaration modern side channel) = channelLine modern side channel := by
  have cleared := @channelLine_cleared _ typed named modern side "" (by decide)
    (ne_empty_of_isName named)
  exact cleared.splits.lexemes_eq

/-- The declaration of a channel starts with a side or with `flat`. -/
theorem channelDeclaration_starts :
    startsWithAny declarationMarks
      ((channelDeclaration modern side channel).toList.dropWhile isBlank) := by
  have opened : ∃ mark ∈ declarationMarks, ∃ rest,
      (channelDeclaration modern side channel).toList = mark.toList ++ rest := by
    rw [channelDeclaration]
    split
    · exact ⟨"flat ", by decide, _, by simp only [String.toList_append]; rfl⟩
    · cases side with
      | output =>
        exact ⟨"out ", by decide, _, by simp only [String.toList_append]; rfl⟩
      | input =>
        exact ⟨"in ", by decide, _, by simp only [String.toList_append]; rfl⟩
  obtain ⟨mark, listed, rest, text⟩ := opened
  have solid : ∀ word ∈ declarationMarks, word.toList.dropWhile isBlank = word.toList ∧
      word.toList ≠ [] := by decide
  obtain ⟨same, present⟩ := solid mark listed
  rw [text, dropWhile_append_of_ne_nil (by rwa [same]), same]
  exact any_eq_true.mpr ⟨mark, listed, List.isPrefixOf_iff_prefix.mpr (List.prefix_append _ _)⟩

theorem channelDeclaration_notHeader :
    Lowering.isHeaderLine (channelDeclaration modern side channel) = false := by
  apply Bool.eq_false_iff.mpr
  intro header
  have other : startsWithAny headerMarks _ = false :=
    startsWithAny_of_apart (by decide) (@channelDeclaration_starts channel modern side)
  rw [headerLine_starts header] at other
  cases other

include typed named in
theorem channelDeclaration_single : '\n' ∉ (channelDeclaration modern side channel).toList := by
  have words : ∀ word ∈ reservedWords, '\n' ∉ word.toList := by decide
  have typeLine := words _ (reserved_of_channelType typed)
  have sideLine : '\n' ∉ side.word.toList := by cases side <;> decide
  have nameLine : '\n' ∉ channel.name.toList := by
    intro mem
    simp only [isName, Bool.and_eq_true] at named
    exact absurd (all_eq_true.mp named.2 _ mem) (by decide)
  rw [channelDeclaration]
  split <;> simp [typeLine, sideLine, nameLine]

include typed named in
theorem fixedLine_channel {names : List String} (free : ∀ name ∈ names, name ∉ reservedWords)
    (ne : channel.name ∉ names) :
    FixedLine side names (channelDeclaration modern side channel) := by
  have pieces := lineLexemes_channel typed named modern side
  have plain := @channelLine_cleared _ typed named modern side "" (by decide)
    (ne_empty_of_isName named)
  refine ⟨channelDeclaration_single typed named modern side, ?_, ?_, ?_, ?_, ?_⟩
  · rw [isMarked, startsWithAny_append, channelDeclaration_starts, Bool.or_true]
  · rw [pieces, channelLine, settled_append]
    rfl
  · rw [pieces, plain.apart]
  · rw [pieces, isWhole_channel]
  · intro name listed
    have cleared := channelLine_cleared typed named modern side (free name listed)
      fun same => ne (same ▸ listed)
    rw [pieces, cleared.absent]

end ChannelLine

end WebShader.Sharing
