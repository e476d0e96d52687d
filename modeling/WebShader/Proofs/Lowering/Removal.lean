import Mathlib.Data.List.Induction
import WebShader.Lowering.Stage
import WebShader.Proofs.Text.Reading

/-!
Contract: what is left of a source without its binding declarations.

Owns: where declarations end, and the characters and lines that their removal
leaves.

Declarations are removed from the last one to the first, so the places of those
to come must not move. They do not: a declaration ends with a semicolon, and the
blanks that go with a later declaration start behind it.
-/

namespace WebShader.Binding

open List Text Text.Reader

variable {source : String} {binding : Binding}

theorem takes_samplerText : samplerText.Takes [';'] :=
  have layout : layoutUniform.Takes [] :=
    (takes_literal _).drop.bind fun _ => takes_blanks.bind fun _ =>
      (takes_literal _).drop.bind fun _ => (takes_through _).bind fun _ => takes_blanks.bind fun _ =>
        (takes_literal _).drop.bind fun _ => takes_someBlanks.andPure _
  have precision : precision.Takes [] := (takes_literalIn _).bind fun _ => takes_someBlanks
  have samplerType : samplerType.Takes [] :=
    (takes_literalIn _).optional.bind fun _ => (takes_literal _).drop.bind fun _ =>
      (takes_someRun _).andPure _
  layout.bind fun _ => precision.optional.bind fun _ => samplerType.bind fun _ =>
    takes_someBlanks.bind fun _ => (takes_someRun _).bind fun _ => takes_blanks.bind fun _ =>
      takes_bracketed.optional.bind fun _ => takes_blanks.bind fun _ => (takes_literal _).andPure _

theorem takes_blockTail : blockTail.Takes [';'] :=
  takes_blanks.bind fun _ => (takes_someRun _).optional.bind fun _ => takes_blanks.bind fun _ =>
    takes_bracketed.optional.bind fun _ => takes_blanks.bind fun _ => (takes_literal _).andPure _

/-- A binding covers characters of a text up to a semicolon. -/
def EndsIn (text : List Char) (binding : Binding) : Prop :=
  binding.start < binding.stop ∧ text[binding.stop - 1]? = some ';'

theorem endsIn_of_suffix {text rest : List Char} (start : binding.start < binding.stop)
    (behind : ';' :: rest <:+ text) (total : binding.stop + rest.length = text.length) :
    binding.EndsIn text := by
  obtain ⟨front, rfl⟩ := behind
  refine ⟨start, ?_⟩
  grind

theorem value_mapM {α β : Type} (step : α → Noted β) (items : List α) :
    (items.mapM step).value = items.map fun item => (step item).value := by
  induction items with
  | nil => rfl
  | cons item rest ih => rw [mapM_cons, Noted.value_bind, Noted.value_bind, ih]; rfl

theorem ofSampler_endsIn {found : Found SamplerText}
    (mem : found ∈ findAll anywhere samplerText source)
    (made : (ofSampler found).value = some binding) : binding.EndsIn source.toList := by
  obtain ⟨front, c, others, rest, shape, start, read, stop⟩ := mem_findAllFrom mem
  have behind : ';' :: rest <:+ c :: others := takes_samplerText read
  have shorter := behind.length_le
  have whole : c :: others <:+ source.toList := ⟨front, shape.symm⟩
  have total := congrArg length shape
  simp only [length_append, length_cons] at total shorter
  have same : binding.start = found.start ∧ binding.stop = found.stop := by
    rw [ofSampler] at made
    split at made
    · cases made
    · split at made <;> cases made
      exact ⟨rfl, rfl⟩
  exact endsIn_of_suffix (by omega) (behind.trans whole) (by omega)

theorem ofBlock_endsIn {found : Found BlockHead} (mem : found ∈ findAll anywhere blockHead source)
    (made : (ofBlock source found).value = some binding) : binding.EndsIn source.toList := by
  have start := (findAllFrom_bounds mem).2
  rw [ofBlock] at made
  split at made
  · cases made
  · dsimp only at made
    split at made
    · cases made
    · split at made
      · cases made
      · cases made
      next rest read =>
        have behind : ';' :: rest <:+ _ := takes_blockTail read
        have shorter := behind.length_le
        cases made
        grind [endsIn_of_suffix, drop_suffix, String.toList_ofList]

/-- Bindings stand in order, and each ends with a semicolon. -/
theorem table_ordered (source : String) :
    (table source).value.Pairwise (fun first second => first.start ≤ second.start) ∧
      ∀ binding ∈ (table source).value, binding.EndsIn source.toList := by
  constructor
  · refine (pairwise_mergeSort (fun a b c first second => ?_) (fun a b => ?_) _).imp
      fun ordered => by simpa using ordered
    · simp only [decide_eq_true_eq] at *
      omega
    grind
  · intro binding mem
    simp only [table, Noted.value_bind, Noted.value_pure, mem_mergeSort, value_mapM, mem_filterMap,
      mem_append, mem_map] at mem
    obtain ⟨_, ⟨found, listed, made⟩ | ⟨found, listed, made⟩, rfl⟩ := mem
    · exact ofSampler_endsIn (mem_filter.mp listed).1 made
    · exact ofBlock_endsIn (mem_filter.mp listed).1 made

end WebShader.Binding

namespace WebShader.Lowering

open List Text
open Binding (EndsIn)

variable {text front back left right before after : List Char} {binding : Binding}
  {bindings : List Binding}

def inked (text : List Char) : List Char :=
  text.filter (!isBlank ·)

/-- Cuts spans out of a text, the last one first. -/
def cutSpans (bindings : List Binding) (text : List Char) : List Char :=
  bindings.foldr (fun binding text => text.take binding.start ++ text.drop binding.stop) text

/-- A line with its end, between parts of a text, that no binding touches. -/
structure LineAt (bindings : List Binding) (text front line back : List Char) : Prop where
  shape : text = front ++ (line ++ back)
  opens : front.getLast?.all (· == '\n') = true
  ends : line.getLast? = some '\n' ∨ back = []
  untouched : ∀ binding ∈ bindings,
    binding.stop ≤ front.length ∨ (front ++ line).length ≤ binding.start

theorem cutSpans_append (ordered : bindings.Pairwise fun first second => first.stop ≤ second.start)
    (within : ∀ binding ∈ bindings, binding.start ≤ binding.stop ∧ binding.stop ≤ front.length)
    (back : List Char) : cutSpans bindings (front ++ back) = cutSpans bindings front ++ back := by
  induction bindings using List.reverseRecOn generalizing front back with
  | nil => rfl
  | append_singleton bindings binding ih =>
    obtain ⟨ordered, -, before⟩ := pairwise_append.mp ordered
    obtain ⟨starts, inside⟩ := within binding (mem_append_right _ mem_cons_self)
    have rest := @ih (front.take binding.start) ordered fun other mem =>
      ⟨(within other (mem_append_left _ mem)).1, by grind⟩
    rw [cutSpans, foldr_append, foldr_cons, foldr_nil, take_append_of_le_length (by omega),
      drop_append_of_le_length inside, cutSpans, foldr_append, foldr_cons]
    exact (rest _).trans (by rw [← append_assoc, ← rest]; rfl)

/-! One declaration. -/

/-- A line ends at the first line end, or with the text. -/
theorem cut_line (text : List Char) : ∃ line rest, text = line ++ rest ∧
    text.takeWhile (!· == '\n') = line ∧ '\n' ∉ line ∧ rest.head?.all (· == '\n') := by
  refine ⟨_, _, takeWhile_append_dropWhile.symm, rfl, fun mem => ?_, ?_⟩
  · exact absurd (all_eq_true.mp all_takeWhile _ mem) (by decide)
  grind [head?_dropWhile_not]

/-- The parts of a text around a declaration: its removal leaves the outer two, and blanks go with
it, those of its last line with the line's end. -/
structure Parts (text : List Char) (binding : Binding) (front left right back : List Char) :
    Prop where
  before : text.take binding.start = front ++ left
  after : text.drop binding.stop = right ++ back
  removed : removeSpan text binding.start binding.stop = front ++ back
  leftBlank : left.all isBlank = true
  rightBlank : right.all isBlank = true
  single : '\n' ∉ left
  ended : '\n' ∉ right.dropLast
  opened : right = [] ∨ front.getLast?.all (· == '\n') = true

theorem exists_parts (text : List Char) (binding : Binding) :
    ∃ front left right back, Parts text binding front left right back := by
  have removed := removeSpan.eq_def text binding.start binding.stop
  dsimp only at removed
  split at removed
  next blank =>
    obtain ⟨left, others, shape, taken, single, opens⟩ := cut_line (text.take binding.start).reverse
    obtain ⟨line, rest, after, lineTaken, lineSingle, ends⟩ := cut_line (text.drop binding.stop)
    rw [taken, lineTaken, Bool.and_eq_true] at blank
    have before : text.take binding.start = others.reverse ++ left.reverse := by
      rw [← reverse_append, ← shape, reverse_reverse]
    rw [taken, lineTaken, before, length_append, Nat.add_sub_cancel, take_left, after, ← drop_drop,
      List.drop_left] at removed
    have alsoSingle : '\n' ∉ left.reverse := by rwa [mem_reverse]
    rw [← getLast?_reverse] at opens
    cases rest with
    | nil =>
      exact ⟨_, _, line, [], before, after, removed, blank.1, blank.2, alsoSingle,
        fun mem => lineSingle (dropLast_subset _ mem), .inr opens⟩
    | cons c back =>
      obtain rfl : c = '\n' := by simpa using ends
      refine ⟨_, _, line ++ ['\n'], back, before, by simpa using after, removed, blank.1, ?_,
        alsoSingle, by rwa [dropLast_concat], .inr opens⟩
      rw [all_append, blank.2]
      decide
  · exact ⟨_, [], [], _, (append_nil _).symm, rfl, removed, rfl, rfl, not_mem_nil, not_mem_nil,
      .inl rfl⟩

section Parts

variable (parts : Parts text binding front left right back)

include parts

/-- A declaration in front of the removed one ends in front of the blanks that go with it. -/
theorem Parts.endsBefore {other : Binding} (ends : EndsIn text other)
    (first : other.stop ≤ binding.start) :
    other.stop ≤ front.length ∧ EndsIn (front ++ back) other := by
  obtain ⟨positive, last⟩ := ends
  rw [← getElem?_take_of_lt (by omega : other.stop - 1 < binding.start), parts.before] at last
  have within : other.stop ≤ front.length := by
    apply Decidable.byContradiction
    intro behind
    rw [getElem?_append_right (by omega)] at last
    exact absurd (all_eq_true.mp parts.leftBlank _ (mem_of_getElem? last)) (by decide)
  refine ⟨within, positive, ?_⟩
  grind

/-- Blanks apart, cutting leaves what the removal leaves. -/
theorem Parts.cut (ordered : bindings.Pairwise fun first second => first.stop ≤ second.start)
    (within : ∀ other ∈ bindings, other.start ≤ other.stop ∧ other.stop ≤ front.length)
    {other tail : List Char} (before : other.take binding.start = front ++ left)
    (after : other.drop binding.stop = right ++ tail) :
    inked (cutSpans (bindings ++ [binding]) other) = inked (cutSpans bindings (front ++ tail)) := by
  have blank {text : List Char} (blank : text.all isBlank) : inked text = [] := by
    simpa [inked] using blank
  have inked_append (front back : List Char) : inked (front ++ back) = inked front ++ inked back :=
    filter_append ..
  have cut : cutSpans (bindings ++ [binding]) other =
      cutSpans bindings (front ++ (left ++ (right ++ tail))) := by
    rw [cutSpans, foldr_append, foldr_cons, foldr_nil, before, after, append_assoc]
    rfl
  rw [cut, cutSpans_append ordered within, cutSpans_append ordered within]
  simp only [inked_append, blank parts.leftBlank, blank parts.rightBlank, nil_append]

/-- A line behind the removed declaration starts behind what goes with it. -/
theorem Parts.lineBehind (shape : text = before ++ after) (ends : EndsIn text binding)
    (opens : before.getLast?.all (· == '\n')) (behind : binding.stop ≤ before.length) :
    ∃ rest, before.take binding.start = front ++ left ∧ before.drop binding.stop = right ++ rest ∧
      back = rest ++ after ∧ (front ++ rest).getLast?.all (· == '\n') := by
  obtain ⟨positive, last⟩ := ends
  obtain ⟨taken, dropped, -, -, -, -, ended, opened⟩ := parts
  rw [shape, take_append_of_le_length (by omega)] at taken
  rw [shape, drop_append_of_le_length behind] at dropped
  rw [shape, getElem?_append_left (by omega)] at last
  have feed : (before.drop binding.stop).getLast? = some '\n' := by
    rw [getLast?_drop]
    split
    · grind
    · grind
  obtain ⟨rest, same, rfl⟩ : ∃ rest, before.drop binding.stop = right ++ rest ∧
      back = rest ++ after := by
    rcases append_eq_append_iff.mp dropped.symm with ⟨rest, same, behind⟩ | ⟨more, same, behind⟩
    · exact ⟨rest, same, behind⟩
    grind
  refine ⟨rest, taken, same, rfl, ?_⟩
  grind

/-- A line in front of the removed declaration ends in front of what goes with it. -/
theorem Parts.lineBefore (shape : text = before ++ after) (feed : before.getLast? = some '\n')
    (ahead : before.length ≤ binding.start) : ∃ rest, front = before ++ rest := by
  have taken := parts.before
  obtain ⟨length, more⟩ := Nat.exists_eq_add_of_le ahead
  rw [shape, more, take_length_add_append] at taken
  rcases append_eq_append_iff.mp taken with ⟨rest, same, -⟩ | ⟨more, same, inLeft⟩
  · exact ⟨rest, same⟩
  · cases more with
    | nil => exact ⟨[], by rw [append_nil, same, append_nil]⟩
    | cons c others =>
      rw [same, getLast?_append, getLast?_cons] at feed
      have listed := mem_of_getLast? (getLast?_cons.trans feed)
      exact absurd (inLeft ▸ mem_append_left _ listed) parts.single

end Parts

/-! All declarations. -/

/-- What the removal of declarations in order keeps. -/
theorem removeSpans_keeps (ordered : bindings.Pairwise fun first second => first.stop ≤ second.start)
    (ends : ∀ binding ∈ bindings, EndsIn text binding) :
    let removed := bindings.foldr (fun binding text => removeSpan text binding.start binding.stop) text
    inked removed = inked (cutSpans bindings text) ∧
      ∀ front line back, LineAt bindings text front line back →
        ∃ ahead behind, LineAt [] removed ahead line behind ∧
          inked ahead = inked (cutSpans bindings front) := by
  induction bindings using List.reverseRecOn generalizing text with
  | nil => exact ⟨rfl, fun front line back found => ⟨front, back, found, rfl⟩⟩
  | append_singleton bindings binding ih =>
    obtain ⟨ordered, -, before⟩ := pairwise_append.mp ordered
    obtain ⟨front, left, right, back, parts⟩ := exists_parts text binding
    have last := ends binding (mem_append_right _ mem_cons_self)
    have earlier (other : Binding) (mem : other ∈ bindings) :=
      parts.endsBefore (ends other (mem_append_left _ mem)) (before other mem binding mem_cons_self)
    obtain ⟨characters, lines⟩ := ih ordered fun other mem => (earlier other mem).2
    have cut {other tail : List Char} := @Parts.cut text front back left right binding bindings parts
      ordered (fun other mem => ⟨Nat.le_of_lt (earlier other mem).2.1,
        (earlier other mem).1⟩) other tail
    rw [foldr_append, foldr_cons, foldr_nil, parts.removed]
    refine ⟨by rw [characters, cut parts.before parts.after], ?_⟩
    rintro ahead line behind ⟨shape, opens, closes, untouched⟩
    rcases untouched binding (mem_append_right _ mem_cons_self) with first | later
    · obtain ⟨rest, taken, dropped, rfl, whole⟩ := parts.lineBehind shape last opens first
      obtain ⟨_, _, kept, same⟩ := lines (front ++ rest) line behind ⟨(append_assoc ..).symm, whole,
        closes, fun other mem => .inl (by grind)⟩
      grind
    · obtain ⟨positive, semicolon⟩ := last
      obtain ⟨inside, -⟩ := List.getElem?_eq_some_iff.mp semicolon
      rw [← append_assoc] at shape
      have feed := closes.resolve_right fun none => by
        rw [shape, none, append_nil] at inside
        omega
      obtain ⟨rest, rfl⟩ :=
        parts.lineBefore shape (by rw [getLast?_append, feed, Option.some_or]) later
      obtain ⟨_, _, kept, same⟩ := lines ahead line (rest ++ back) ⟨by simp only [append_assoc],
        opens, .inl feed, fun other mem => untouched other (mem_append_left _ mem)⟩
      refine ⟨_, _, kept, same.trans ?_⟩
      rw [length_append] at later
      rw [cutSpans, cutSpans, foldr_append, foldr_cons, foldr_nil,
        take_of_length_le (by omega), drop_of_length_le (by omega), append_nil]

/-- The removal of declarations that do not overlap removes nothing else: blanks apart, it leaves
what cutting them out leaves, and every line that none of them touches stays in its place. -/
theorem removeBindings_keeps (source : String)
    (disjoint : (Binding.table source).value.Pairwise fun first second =>
      first.stop ≤ second.start ∨ second.stop ≤ first.start) :
    inked (removeBindings source).value.toList =
        inked (cutSpans (Binding.table source).value source.toList) ∧
      ∀ front line back, LineAt (Binding.table source).value source.toList front line back →
        ∃ ahead behind, LineAt [] (removeBindings source).value.toList ahead line behind ∧
          inked ahead = inked (cutSpans (Binding.table source).value front) := by
  obtain ⟨sorted, ends⟩ := Binding.table_ordered source
  have ordered := (sorted.and disjoint).imp_of_mem fun _ mem facts =>
    facts.2.resolve_right fun behind => absurd (ends _ mem).1 (by omega)
  have keeps := removeSpans_keeps ordered ends
  rwa [removeBindings, Noted.value_bind, Noted.value_pure, String.toList_ofList]

/-- Two declarations that share a line, and a line of code. -/
def sharedLine : String :=
  "layout(binding=0) uniform sampler2D a; layout(binding=1) uniform sampler2D b;\nx;\n"

theorem removeBindings_keeps_sharedLine :
    inked (removeBindings sharedLine).value.toList = "x;".toList ∧
      ∃ ahead behind,
        LineAt [] (removeBindings sharedLine).value.toList ahead "x;\n".toList behind := by
  have table : (Binding.table sharedLine).value = _ := mergeSort_of_pairwise (by decide +kernel)
  obtain ⟨characters, lines⟩ := removeBindings_keeps sharedLine (by rw [table]; decide +kernel)
  refine ⟨by rw [characters, table]; decide +kernel, ?_⟩
  obtain ⟨ahead, behind, kept, -⟩ := lines (sharedLine.toList.take 78) "x;\n".toList []
    ⟨by decide, by decide, .inr rfl, by rw [table]; decide +kernel⟩
  exact ⟨ahead, behind, kept⟩

end WebShader.Lowering
