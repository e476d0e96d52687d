import WebShader.Lowering.Stage
import WebShader.Proofs.Text.Reading
import WebShader.Proofs.Token.Lossless

/-!
Contract: which lines lowering cleans of macros that are defined by their own name.

Owns: the lines of a text with their ends, definitions of a macro by its own
name, and what is left of each line where nothing has to be lowered.

The pattern for such a definition does not ask that the line ends behind it. A
body that only starts with the macro's name is cut there.
-/

namespace WebShader.Text

open List

variable {α : Type} {reader : Reader α} {replacement : α → String} {prev : Option Char}
  {head rest line more : List Char}
  {c : Char} {opening : Opening} {found : List Char} {value : Unit}

/-! Lines and their ends. -/

/-- One line, in front of what follows it. Only the last line may lack its line feed. -/
structure IsLine (line more : List Char) : Prop where
  single : '\n' ∉ line.dropLast
  ends : line.getLast? = some '\n' ∨ more = []

theorem IsLine.more_eq_nil (isLine : IsLine line more) (single : '\n' ∉ line) : more = [] :=
  isLine.ends.resolve_left fun last => single (mem_of_getLast? last)

theorem IsLine.tail_eq_nil (isLine : IsLine ('\n' :: rest) more) : rest = [] := by
  cases rest with
  | nil => rfl
  | cons c others => exact absurd mem_cons_self isLine.single

/-- What follows a text without line feed on its line. -/
theorem IsLine.behind (isLine : IsLine (head ++ rest) more) (single : '\n' ∉ head) :
    IsLine rest more := by
  cases rest with
  | nil =>
    rw [append_nil] at isLine
    exact ⟨by simp, .inr (isLine.more_eq_nil single)⟩
  | cons c others =>
    obtain ⟨inside, ends⟩ := isLine
    rw [dropLast_append_of_ne_nil (by simp)] at inside
    refine ⟨fun mem => inside (mem_append_right _ mem), ends.imp_left fun last => ?_⟩
    simpa [getLast?_cons] using last

theorem IsLine.tail (isLine : IsLine (c :: rest) more) (ne : c ≠ '\n') :
    IsLine rest more :=
  (show IsLine ([c] ++ rest) more from isLine).behind (by simpa using Ne.symm ne)

theorem exists_line {text : List Char} (present : text ≠ []) :
    ∃ line more, text = line ++ more ∧ line ≠ [] ∧ IsLine line more := by
  induction text with
  | nil => exact absurd rfl present
  | cons c rest ih =>
    by_cases lineFeed : c = '\n'
    · exact ⟨[c], rest, rfl, by simp, by simp, .inl (by rw [lineFeed]; rfl)⟩
    · by_cases last : rest = []
      · exact ⟨[c], [], by rw [last]; rfl, by simp, by simp, .inr rfl⟩
      · obtain ⟨line, more, rfl, nonempty, single, ends⟩ := ih last
        refine ⟨c :: line, more, rfl, by simp, ?_, ?_⟩
        · rw [dropLast_cons_of_ne_nil nonempty, mem_cons, not_or]
          exact ⟨Ne.symm lineFeed, single⟩
        · rwa [getLast?_cons_of_ne_nil nonempty]

def afterLineFeed (text : List Char) : List Char :=
  if ['\n'].isPrefixOf text then text.drop 1 else text

theorem IsLine.afterLineFeed_dropWhile (isLine : IsLine line more) :
    afterLineFeed ((line ++ more).dropWhile (· != '\n')) = more := by
  induction line with
  | nil =>
    rw [isLine.more_eq_nil (by simp)]
    rfl
  | cons c others ih =>
    by_cases lineFeed : c = '\n'
    · subst lineFeed
      rw [isLine.tail_eq_nil]
      rfl
    · rw [cons_append, dropWhile_cons_of_pos (by simpa using lineFeed)]
      exact ih (isLine.tail lineFeed)

theorem IsLine.rewriteFrom_next (isLine : IsLine line more) :
    rewriteFrom opening reader replacement line.getLast? 0 more =
      rewriteFrom opening reader replacement (some '\n') 0 more := by
  rcases isLine.ends with last | rfl
  · rw [last]
  · rfl

/-- A line stays where matches start with lines and none starts with this one. -/
theorem IsLine.rewriteFrom_copy (isLine : IsLine line more) (present : line ≠ [])
    (fails : lineStart prev → reader.read? (line ++ more) = none) :
    rewriteFrom lineStart reader replacement prev 0 (line ++ more) =
      line ++ rewriteFrom lineStart reader replacement (some '\n') 0 more := by
  induction line generalizing prev with
  | nil => exact absurd rfl present
  | cons c others ih =>
    have kept : (if lineStart prev then reader.read? (c :: (others ++ more)) else none) =
        none := by
      split
      next starts => exact fails starts
      · rfl
    rw [cons_append, rewriteFrom, kept]
    refine congrArg (c :: ·) ?_
    by_cases last : others = []
    · subst last
      exact isLine.rewriteFrom_next
    · have ne : c ≠ '\n' := fun lineFeed => last (lineFeed ▸ isLine).tail_eq_nil
      exact ih (isLine.tail ne) last (by simp [lineStart, ne])

theorem rewriteFrom_skip (taken : List Char) :
    rewriteFrom opening reader replacement prev taken.length (taken ++ rest) =
      rewriteFrom opening reader replacement (taken.getLast?.or prev) 0 rest := by
  induction taken generalizing prev with
  | nil => rfl
  | cons c others ih =>
    rw [length_cons, cons_append, rewriteFrom, ih, getLast?_cons]
    cases others.getLast? <;> rfl

/-- A match at the start of a text is replaced as a whole. -/
theorem rewriteFrom_match {taken : List Char} {value : α}
    (opens : opening prev) (present : taken ≠ [])
    (reads : reader.read? (taken ++ rest) = some (value, rest)) :
    rewriteFrom opening reader replacement prev 0 (taken ++ rest) = (replacement value).toList ++
        rewriteFrom opening reader replacement taken.getLast? 0 rest := by
  obtain ⟨c, others, rfl⟩ := exists_cons_of_ne_nil present
  simp_all [rewriteFrom, rewriteFrom_skip, getLast?_cons]

namespace Reader

/-! Gaps and choices. -/

theorem read?_gap (inside : ∀ c ∈ found, isSpaceOrTab c)
    (ends : rest.head?.any isSpaceOrTab = false) : gap.read? (found ++ rest) = some ((), rest) := by
  show some ((), (found ++ rest).dropWhile isSpaceOrTab) = _
  rw [(takeWhile_run inside ends).2]

theorem read?_someGap (present : found ≠ [])
    (inside : ∀ c ∈ found, isSpaceOrTab c) (ends : rest.head?.any isSpaceOrTab = false) :
    someGap.read? (found ++ rest) = some ((), rest) := by
  show ((someRun isSpaceOrTab).read? (found ++ rest)).bind (fun read => some ((), read.2)) = _
  rw [read?_someRun present inside ends]
  rfl

theorem gap_eq_some {text : List Char} (reads : gap.read? text = some (value, rest)) :
    ∃ found, text = found ++ rest ∧ (∀ c ∈ found, isSpaceOrTab c) ∧
      rest.head?.any isSpaceOrTab = false := by
  obtain rfl : text.dropWhile isSpaceOrTab = rest := congrArg Prod.snd (Option.some.inj reads)
  refine ⟨text.takeWhile isSpaceOrTab, takeWhile_append_dropWhile.symm,
    all_eq_true.mp all_takeWhile, ?_⟩
  cases left : text.dropWhile isSpaceOrTab with
  | nil => rfl
  | cons c others => simpa [left] using head_dropWhile_not isSpaceOrTab (l := text) (by simp [left])

theorem someRun_parts {inClass : Char → Bool} {text : List Char} {value : String}
    (reads : (someRun inClass).read? text = some (value, rest)) :
    text = value.toList ++ rest ∧ value.toList ≠ [] ∧ ∀ c ∈ value.toList, inClass c := by
  obtain ⟨taken, rfl, present⟩ := someRun_eq_some reads
  rw [taken]
  exact ⟨takeWhile_append_dropWhile.symm, present, all_eq_true.mp all_takeWhile⟩

theorem someGap_eq_some {text : List Char} (reads : someGap.read? text = some (value, rest)) :
    ∃ found, text = found ++ rest ∧ found ≠ [] ∧ ∀ c ∈ found, isSpaceOrTab c := by
  have taken : ((someRun isSpaceOrTab).read? text).bind (fun read => some ((), read.2)) =
      some (value, rest) := reads
  obtain ⟨⟨run, left⟩, first, same⟩ := Option.bind_eq_some_iff.mp taken
  obtain rfl : left = rest := congrArg Prod.snd (Option.some.inj same)
  exact ⟨run.toList, someRun_parts first⟩

theorem read?_optional (reader : Reader α) (text : List Char) :
    (Reader.optional reader).read? text =
      some (((reader.read? text).map fun found => (some found.1, found.2)).getD (none, text)) := by
  show Reader.optional reader text = some (((reader text).map _).getD _)
  unfold Reader.optional
  cases reader text <;> rfl

theorem read?_literal_eq (wanted : String) (text : List Char) :
    (literal wanted).read? text = if wanted.toList.isPrefixOf text then
      some ((), text.drop wanted.toList.length) else none := by
  show Option.map _ (if wanted.toList.isPrefixOf text then _ else none) = _
  split <;> rfl

end Reader

end WebShader.Text

namespace WebShader.Lowering

open List Text Text.Reader

variable {head rest line more text : List Char} {context : Context}

/-! Definitions of a macro by its own name. -/

/-- A macro that is defined by its own name, with the blanks around the parts. -/
def OwnDefinition (head : List Char) : Prop :=
  ∃ indent inner first name second last : List Char,
    head = indent ++ ("#".toList ++ (inner ++ ("define".toList ++
      (first ++ (name ++ (second ++ (name ++ last))))))) ∧
    (∀ gap ∈ [indent, inner, first, second, last], ∀ c ∈ gap, isSpaceOrTab c = true) ∧
    first ≠ [] ∧ second ≠ [] ∧ name ≠ [] ∧ ∀ c ∈ name, isWord c = true

/-- A line starts with such a definition, and `rest` follows the blanks behind it. -/
def DefinesItself (line rest : List Char) : Prop :=
  ∃ head, OwnDefinition head ∧ line = head ++ rest ∧ rest.head?.any isSpaceOrTab = false

/-- Nothing follows but the end of the line or a comment. -/
def endsLine (rest : List Char) : Bool :=
  rest.isEmpty || rest == ['\n'] || ['/', '/'].isPrefixOf rest

/-- What is left of a line. -/
inductive Cleaned (line : List Char) : List Char → Prop where
  | dropped {rest : List Char} (own : DefinesItself line rest) (ends : endsLine rest = true) :
      Cleaned line []
  | cut {rest : List Char} (own : DefinesItself line rest) (goesOn : endsLine rest = false) :
      Cleaned line rest
  | kept (other : ∀ rest, ¬DefinesItself line rest) : Cleaned line line

/-- What is left of a text, line by line. -/
inductive CleanedLines : List Char → List Char → Prop where
  | nil : CleanedLines [] []
  | line {line left more others : List Char} (isLine : IsLine line more) (present : line ≠ [])
      (cleaned : Cleaned line left) (later : CleanedLines more others) :
      CleanedLines (line ++ more) (left ++ others)

theorem isSpaceOrTab_of_isWord (word : isWord c) : isSpaceOrTab c = false := by
  rw [Bool.eq_false_iff]
  intro blank
  have cases : c = ' ' ∨ c = '\t' := by simpa [isSpaceOrTab] using blank
  rcases cases with rfl | rfl <;> exact absurd word (by decide)

theorem OwnDefinition.single (own : OwnDefinition head) : '\n' ∉ head := by
  obtain ⟨indent, inner, first, name, second, last, rfl, gaps, -, -, -, named⟩ := own
  have outside : ∀ gap ∈ [indent, inner, first, second, last], '\n' ∉ gap :=
    fun gap listed mem => absurd (gaps gap listed _ mem) (by decide)
  have inName : '\n' ∉ name := fun mem => absurd (named _ mem) (by decide)
  simp [outside, inName]

theorem OwnDefinition.ne_nil (own : OwnDefinition head) : head ≠ [] := by
  obtain ⟨indent, inner, first, name, second, last, rfl, -⟩ := own
  simp

/-! Reading. -/

/-- The definition itself, without the end of its line. -/
def ownHead : Reader Unit := do
  let name ← defineHead
  someGap
  literal name
  gap

/-- What may follow a definition on its line. -/
def definitionEnd : Reader Unit := do
  let _ ← Reader.optional (do
    literal "//"
    run (· != '\n'))
  let _ ← Reader.optional (literal "\n")

def behindDefinition (rest : List Char) : List Char :=
  afterLineFeed (if ['/', '/'].isPrefixOf rest then rest.dropWhile (· != '\n') else rest)

theorem read?_definitionEnd (rest : List Char) :
    definitionEnd.read? rest = some ((), behindDefinition rest) := by
  have lineFeed (left : List Char) :
      (do let _ ← Reader.optional (literal "\n") : Reader Unit).read? left =
        some ((), afterLineFeed left) := by
    rw [read?_bind, read?_optional, read?_literal_eq, afterLineFeed,
      show "\n".toList = ['\n'] from rfl]
    split <;> rfl
  rw [definitionEnd, read?_bind, read?_optional, read?_bind, read?_literal_eq, Option.bind_some,
    lineFeed, behindDefinition, show "//".toList = ['/', '/'] from rfl]
  by_cases comment : ['/', '/'].isPrefixOf rest = true
  · obtain ⟨text, rfl⟩ := List.isPrefixOf_iff_prefix.mp comment
    rfl
  · rw [if_neg comment, if_neg comment]
    rfl

theorem read?_selfDefinition (text : List Char) :
    selfDefinition.read? text =
      (ownHead.read? text).map fun found => ((), behindDefinition found.2) := by
  have split : selfDefinition.read? text =
      (ownHead.read? text).bind fun found => definitionEnd.read? found.2 := by
    simp only [selfDefinition, ownHead, definitionEnd, read?_bind, Option.bind_assoc]
  rw [split]
  simp only [read?_definitionEnd, Option.map_eq_bind, Function.comp_def]

theorem OwnDefinition.reads (own : OwnDefinition head)
    (stops : rest.head?.any isSpaceOrTab = false) :
    ownHead.read? (head ++ rest) = some ((), rest) := by
  obtain ⟨indent, inner, first, name, second, last, rfl, gaps, hasFirst, hasSecond, hasName,
    named⟩ := own
  simp only [mem_cons, forall_eq_or_imp] at gaps
  obtain ⟨inIndent, inInner, inFirst, inSecond, inLast⟩ := gaps
  obtain ⟨initial, others, rfl⟩ := exists_cons_of_ne_nil hasName
  obtain ⟨blank, blanks, rfl⟩ := exists_cons_of_ne_nil hasSecond
  have wordStarts : isSpaceOrTab initial = false := isSpaceOrTab_of_isWord (named initial (by simp))
  have blankStarts : isWord blank = false := by
    rw [Bool.eq_false_iff]
    intro word
    exact absurd (inSecond blank (by simp)) (by simp [isSpaceOrTab_of_isWord word])
  simp only [ownHead, defineHead, read?_bind, append_assoc]
  rw [read?_gap inIndent rfl, Option.bind_some, read?_literal, Option.bind_some,
    read?_gap inInner rfl, Option.bind_some, read?_literal, Option.bind_some,
    read?_someGap hasFirst inFirst (by simpa using wordStarts), Option.bind_some, Reader.word,
    read?_someRun hasName named (by simpa using blankStarts), Option.bind_some,
    read?_someGap hasSecond inSecond (by simpa using wordStarts)]
  grind [read?_literal, String.toList_ofList, read?_gap]

theorem definesItself_of_reads {text : List Char}
    (reads : ownHead.read? text = some (value, rest)) : DefinesItself text rest := by
  simp only [ownHead, defineHead, read?_bind, Option.bind_eq_some_iff, Prod.exists] at reads
  obtain ⟨name, afterName, ⟨_, _, indented, _, _, hash, _, _, spaced, _, _, define, _, _, parted,
    word⟩, _, _, parted', _, _, again, blank⟩ := reads
  obtain ⟨indent, rfl, inIndent, -⟩ := gap_eq_some indented
  obtain ⟨inner, rfl, inInner, -⟩ := gap_eq_some spaced
  obtain ⟨first, rfl, hasFirst, inFirst⟩ := someGap_eq_some parted
  obtain ⟨rfl, hasName, named⟩ := someRun_parts word
  obtain ⟨second, rfl, hasSecond, inSecond⟩ := someGap_eq_some parted'
  obtain ⟨last, rfl, inLast, stops⟩ := gap_eq_some blank
  obtain rfl := literal_eq_some hash
  obtain rfl := literal_eq_some define
  obtain rfl := literal_eq_some again
  refine ⟨_, ⟨indent, inner, first, name.toList, second, last, rfl, ?_, hasFirst, hasSecond,
    hasName, named⟩, by simp only [append_assoc], stops⟩
  simp_all

/-! One line. -/

theorem behindDefinition_line (isLine : IsLine rest more) :
    behindDefinition (rest ++ more) = (if endsLine rest then [] else rest) ++ more := by
  have comment : ['/', '/'].isPrefixOf (rest ++ more) = ['/', '/'].isPrefixOf rest := by
    match rest with
    | [] => rw [isLine.more_eq_nil (by simp)]; rfl
    | [c] =>
      rcases isLine.ends with last | rfl
      · grind
      · rfl
    | c :: d :: others => simp [List.isPrefixOf]
  rw [behindDefinition, comment, endsLine]
  cases ['/', '/'].isPrefixOf rest with
  | true => simpa using isLine.afterLineFeed_dropWhile
  | false =>
    cases rest with
    | nil =>
      rw [isLine.more_eq_nil (by simp)]
      rfl
    | cons c others =>
      by_cases lineFeed : c = '\n'
      · subst lineFeed
        rw [isLine.tail_eq_nil]
        rfl
      · simp [afterLineFeed, lineFeed, Ne.symm lineFeed]

theorem OwnDefinition.lineStart_getLast? (own : OwnDefinition head) :
    lineStart head.getLast? = false := by
  rw [getLast?_eq_some_getLast own.ne_nil]
  have ends : head.getLast own.ne_nil ≠ '\n' :=
    fun lineFeed => own.single (lineFeed ▸ getLast_mem own.ne_nil)
  simpa [lineStart] using ends

/-- A definition at the start of a text is one at the start of its first line. -/
theorem DefinesItself.onLine (isLine : IsLine line more) (own : DefinesItself (line ++ more) text) :
    ∃ rest, text = rest ++ more ∧ IsLine rest more ∧ DefinesItself line rest := by
  obtain ⟨head, own, shape, stops⟩ := own
  rcases append_eq_append_iff.mp shape with ⟨left, rfl, rfl⟩ | ⟨left, rfl, rfl⟩
  · have ended : left ++ text = [] :=
      isLine.more_eq_nil fun mem => own.single (by simp [mem])
    obtain ⟨rfl, rfl⟩ := append_eq_nil_iff.mp ended
    rw [append_nil] at own
    exact ⟨[], rfl, ⟨by simp, .inr rfl⟩, line, own, by simp, rfl⟩
  · refine ⟨left, rfl, isLine.behind own.single, head, own, rfl, ?_⟩
    cases left with
    | nil => rfl
    | cons c others => exact stops

theorem DefinesItself.reads_line (isLine : IsLine line more) (own : DefinesItself line rest) :
    ownHead.read? (line ++ more) = some ((), rest ++ more) := by
  obtain ⟨head, own, rfl, stops⟩ := own
  rw [append_assoc]
  refine own.reads ?_
  cases rest with
  | nil =>
    rw [append_nil] at isLine
    rw [isLine.more_eq_nil own.single]
    rfl
  | cons c others => exact stops

/-- One line of the clean-up. -/
theorem exists_cleaned {prev : Option Char} (starts : lineStart prev)
    (present : line ≠ []) (isLine : IsLine line more) :
    ∃ left, Cleaned line left ∧
      rewriteFrom lineStart selfDefinition (fun _ => "") prev 0 (line ++ more) =
        left ++ rewriteFrom lineStart selfDefinition (fun _ => "") (some '\n') 0 more := by
  cases found : ownHead.read? (line ++ more) with
  | none =>
    have other (rest : List Char) : ¬DefinesItself line rest := by
      intro own
      rw [own.reads_line isLine] at found
      cases found
    refine ⟨line, .kept other, isLine.rewriteFrom_copy present fun _ => ?_⟩
    rw [read?_selfDefinition, found]
    rfl
  | some read =>
    obtain ⟨⟨⟩, text⟩ := read
    obtain ⟨rest, rfl, restLine, own⟩ := (definesItself_of_reads found).onLine isLine
    have reads : selfDefinition.read? (line ++ more) =
        some ((), (if endsLine rest then [] else rest) ++ more) := by
      rw [read?_selfDefinition, found, Option.map_some, behindDefinition_line restLine]
    cases ends : endsLine rest with
    | true =>
      rw [if_pos ends] at reads
      refine ⟨[], .dropped own ends, ?_⟩
      rw [rewriteFrom_match starts present reads, isLine.rewriteFrom_next]
      rfl
    | false =>
      refine ⟨rest, .cut own ends, ?_⟩
      rw [ends] at reads
      obtain ⟨head, own, rfl, -⟩ := own
      have nonempty : rest ≠ [] := by
        rintro rfl
        cases ends
      rw [append_assoc] at reads ⊢
      rw [rewriteFrom_match starts own.ne_nil reads, restLine.rewriteFrom_copy nonempty]
      · rfl
      · rw [own.lineStart_getLast?]
        rintro ⟨⟩

/-! The whole text. -/

/-- The clean-up goes through a text line by line. -/
theorem cleanedLines_rewriteFrom (text : List Char) {prev : Option Char} (starts : lineStart prev) :
    CleanedLines text (rewriteFrom lineStart selfDefinition (fun _ => "") prev 0 text) := by
  by_cases present : text = []
  · rw [present]
    exact .nil
  · obtain ⟨line, more, rfl, nonempty, isLine⟩ := exists_line present
    have shorter : more.length < (line ++ more).length := by
      have := length_pos_iff.mpr nonempty
      rw [length_append]
      omega
    obtain ⟨left, cleaned, here⟩ := exists_cleaned starts nonempty isLine
    rw [here]
    exact .line isLine nonempty cleaned (cleanedLines_rewriteFrom more rfl)
termination_by text.length

theorem flattenFrom_plain (none : context.bindings = []) (prev : Option Token)
    (tokens : List Token) : (flattenFrom context prev tokens).value = tokens.map Token.text := by
  have noBlock (prev : Option Token) (token : Token) : blockAt? context prev token = .none := by
    rw [blockAt?, Context.blockNamed?, none]
    split <;> rfl
  induction tokens generalizing prev with
  | nil =>
    rw [flattenFrom]
    rfl
  | cons token rest ih =>
    rw [flattenFrom, noBlock]
    exact congrArg (token.text :: ·) (ih _)

/-- Without bindings and parameters, lowering only cleans the lines. -/
theorem value_lower_plain {source : String} (plain : (Binding.table source).value = [])
    (none : context.bindings = []) (noParameters : context.parameterNames = []) :
    (lower context source).value = dropSelfDefinitions source := by
  have same : (removeBindings source).value = source := by
    rw [removeBindings, Noted.value_bind, plain]
    exact String.ofList_toList
  have flat : (flattenMembers context source).value = source := by
    rw [flattenMembers, Noted.value_bind, flattenFrom_plain none]
    exact Token.render_lex source
  have noUniforms (text : String) : neededUniforms context text = [] := by
    rw [neededUniforms, none, noParameters]
    rfl
  rw [lower, Noted.value_bind, same, Noted.value_bind, flat, Noted.value_pure, noUniforms]
  rfl

/-- Lowering a source without bindings leaves every line but definitions of a macro by its own
name. It drops such a line if nothing but a comment follows, and cuts it to what follows. -/
theorem lower_cleans_lines {source : String} (plain : (Binding.table source).value = [])
    (none : context.bindings = []) (noParameters : context.parameterNames = []) :
    CleanedLines source.toList (lower context source).value.toList := by
  rw [value_lower_plain plain none noParameters, dropSelfDefinitions, toList_replaceAll]
  exact cleanedLines_rewriteFrom source.toList rfl

/-- The macro `tex` is no longer defined, and the rest of `texture` stands as code. -/
theorem lower_cleans_lines_cut :
    (Binding.table "#define tex texture\n").value = [] ∧
    CleanedLines "#define tex texture\n".toList
      (lower ⟨[], [], [], "PARAM_"⟩ "#define tex texture\n").value.toList ∧
    (lower ⟨[], [], [], "PARAM_"⟩ "#define tex texture\n").value = "ture\n" := by
  have plain : (Binding.table "#define tex texture\n").value = [] := by decide +kernel
  refine ⟨plain, lower_cleans_lines plain rfl rfl, ?_⟩
  rw [value_lower_plain plain rfl rfl]
  decide +kernel

end WebShader.Lowering
