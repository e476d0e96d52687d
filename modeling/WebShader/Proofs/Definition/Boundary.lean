import WebShader.Definition.Preamble
import WebShader.Proofs.Text.Reading

/-!
Contract: where the preamble of a source ends.

Owns: readers that stay on a line, and the first match of such a reader behind
whole lines that hold none.
-/

namespace WebShader.Text.Reader

open List

variable {α β : Type} {inClass : Char → Bool}

/-- A reader that sees no more of a text than its first line with the line's end. -/
def StaysOnLine (reader : Reader α) : Prop :=
  ∀ line, '\n' ∉ line → (∀ rest, reader.read? (line ++ '\n' :: rest) = none) ∨
      ∃ value left, '\n' ∉ left ∧
        ∀ rest, reader.read? (line ++ '\n' :: rest) = some (value, left ++ '\n' :: rest)

theorem StaysOnLine.bind {first : Reader α} {next : α → Reader β} (stays : StaysOnLine first)
    (later : ∀ value, StaysOnLine (next value)) : StaysOnLine (first >>= next) := by
  intro line single
  rcases stays line single with fails | ⟨value, left, none, reads⟩
  · exact .inl fun rest => by rw [read?_bind, fails, Option.bind_none]
  · rcases later value left none with fails | ⟨result, further, alsoNone, readsOn⟩
    · exact .inl fun rest => by rw [read?_bind, reads, Option.bind_some, fails]
    simp_all [read?_bind]

theorem staysOnLine_literal {wanted : String} (single : '\n' ∉ wanted.toList) :
    StaysOnLine (literal wanted) := by
  intro line oneLine
  have cut (rest : List Char) : (literal wanted).read? (line ++ '\n' :: rest) =
      if wanted.toList.isPrefixOf (line ++ '\n' :: rest) then
        some ((), (line ++ '\n' :: rest).drop wanted.toList.length) else none := by
    show (afterPrefix? _ _).map (fun rest => ((), rest)) = _
    rw [afterPrefix?]
    split <;> rfl
  by_cases front : wanted.toList <+: line
  · obtain ⟨left, rfl⟩ := front
    simp_all
  · refine .inl fun rest => ?_
    rw [cut, if_neg]
    intro isPrefix
    obtain ⟨behind, shape⟩ := List.isPrefixOf_iff_prefix.mp isPrefix
    rcases append_eq_append_iff.mp shape with ⟨more, inLine, -⟩ | ⟨more, inWanted, ends⟩
    · exact front ⟨more, inLine.symm⟩
    · cases more with
      | nil => exact front ⟨[], by rw [inWanted]; simp⟩
      | cons c others => grind

theorem run_line (ends : inClass '\n' = false) (line rest : List Char) :
    (line ++ '\n' :: rest).takeWhile inClass = line.takeWhile inClass ∧
      (line ++ '\n' :: rest).dropWhile inClass = line.dropWhile inClass ++ '\n' :: rest := by
  induction line with
  | nil => simp [ends]
  | cons c others ih =>
    obtain ⟨taken, left⟩ := ih
    cases inside : inClass c with
    | true => simp [inside, taken, left]
    | false => simp [inside]

theorem not_mem_dropWhile {line : List Char} (single : '\n' ∉ line) :
    '\n' ∉ line.dropWhile inClass :=
  fun mem => single ((dropWhile_sublist _).subset mem)

theorem staysOnLine_gap : StaysOnLine gap := by
  intro line single
  refine .inr ⟨(), line.dropWhile isSpaceOrTab, not_mem_dropWhile single, fun rest => ?_⟩
  show some ((), (line ++ '\n' :: rest).dropWhile isSpaceOrTab) = _
  rw [(run_line (by decide) line rest).2]

theorem staysOnLine_someGap : StaysOnLine someGap := by
  intro line single
  have cut (rest : List Char) : someGap.read? (line ++ '\n' :: rest) =
      if (line.takeWhile isSpaceOrTab).isEmpty then none
      else some ((), line.dropWhile isSpaceOrTab ++ '\n' :: rest) := by
    have space : isSpaceOrTab '\n' = false := by decide
    obtain ⟨taken, left⟩ := run_line space line rest
    show (if ((line ++ '\n' :: rest).takeWhile isSpaceOrTab).isEmpty then none
      else some (String.ofList ((line ++ '\n' :: rest).takeWhile isSpaceOrTab),
        (line ++ '\n' :: rest).dropWhile isSpaceOrTab)).bind (fun found => some ((), found.2)) = _
    rw [taken, left]
    split <;> rfl
  simp_all [isEmpty, not_mem_dropWhile]

theorem staysOnLine_wordEnd : StaysOnLine wordEnd := by
  intro line single
  have front (rest : List Char) : (line ++ '\n' :: rest).head?.any isWord = line.head?.any isWord := by
    cases line with
    | nil => rfl
    | cons c others => rfl
  have cut (rest : List Char) : wordEnd.read? (line ++ '\n' :: rest) =
      if line.head?.any isWord then none else some ((), line ++ '\n' :: rest) := by
    rw [← front rest]
    rfl
  simp_all

end WebShader.Text.Reader

namespace WebShader.Preamble

open Text Text.Reader

theorem staysOnLine_stagePragma : StaysOnLine stagePragma :=
  staysOnLine_gap.bind fun _ => (staysOnLine_literal (by decide)).bind fun _ =>
    staysOnLine_gap.bind fun _ => (staysOnLine_literal (by decide)).bind fun _ =>
      staysOnLine_someGap.bind fun _ => (staysOnLine_literal (by decide)).bind fun _ =>
        staysOnLine_wordEnd

end WebShader.Preamble

namespace WebShader.Text

open List

variable {c : Char} {others text : List Char} {offset : Nat} {prev : Option Char} {α : Type}

/-- A reader that fails on whole lines fails whatever follows them. -/
theorem Reader.StaysOnLine.fails_append {reader : Reader α} (stays : reader.StaysOnLine)
    (whole : (c :: others).getLast?.all (· == '\n'))
    (fails : reader.read? (c :: others) = none) (rest : List Char) :
    reader.read? (c :: (others ++ rest)) = none := by
  have ends : '\n' ∈ c :: others := by
    have last := getLast?_eq_some_getLast (cons_ne_nil c others)
    rw [last, Option.all_some, beq_iff_eq] at whole
    rw [← whole]
    exact getLast_mem _
  obtain ⟨line, more, shape, single⟩ := eq_append_cons_of_mem ends
  rw [← cons_append, shape, append_assoc]
  rw [shape] at fails
  rcases stays line single with never | ⟨value, left, -, reads⟩
  · exact never _
  · rw [reads] at fails
    cases fails

/-- Behind whole lines without a match, the search goes on as at the start of a text. -/
theorem findAllFrom_lines_none {reader : Reader α} (stays : reader.StaysOnLine)
    (nothing : findAllFrom lineStart reader prev offset 0 text = [])
    (whole : text.getLast?.all (· == '\n')) (rest : List Char) :
    findAllFrom lineStart reader prev offset 0 (text ++ rest) =
      findAllFrom lineStart reader (text.getLast?.or prev) (offset + text.length) 0 rest := by
  induction text generalizing prev offset with
  | nil => rfl
  | cons c others ih =>
    rw [findAllFrom] at nothing
    cases matched : (if lineStart prev then reader.read? (c :: others) else none) with
    | some found =>
      rw [matched] at nothing
      cases nothing
    | none =>
      have fails : (if lineStart prev then reader.read? (c :: (others ++ rest)) else none) =
          none := by
        cases opens : lineStart prev with
        | false => rfl
        | true =>
          rw [opens] at matched
          exact stays.fails_append whole matched rest
      grind [findAllFrom]

/-- Whether there is a match does not depend on where the text stands. -/
theorem findAllFrom_eq_nil {opening : Opening} {reader : Reader α} {other : Option Char}
    {pos : Nat} (same : opening prev = opening other)
    (nothing : findAllFrom opening reader prev offset 0 text = []) :
    findAllFrom opening reader other pos 0 text = [] := by
  induction text generalizing prev other offset pos with
  | nil => rfl
  | cons c rest ih =>
    rw [findAllFrom] at nothing
    rw [findAllFrom]
    grind

end WebShader.Text

namespace WebShader.Preamble

open List Text

theorem textOf?_eq_none {text : String} :
    textOf? text = none ↔ findAllFrom lineStart stagePragma none 0 0 text.toList = [] := by
  rw [textOf?, Option.map_eq_none_iff, head?_eq_none_iff, findAll]

/-- Whole lines without a stage pragma bring none to what follows them. -/
theorem textOf?_lines {front back : String} (noStage : textOf? front = none)
    (whole : front.toList.getLast?.all (· == '\n')) (alsoNone : textOf? back = none) :
    textOf? (front ++ back) = none := by
  grind [lineStart, textOf?_eq_none, String.toList_append, findAllFrom_lines_none, staysOnLine_stagePragma, findAllFrom_eq_nil]

/-- Whole lines without a stage pragma are the preamble of a source that goes on with one. -/
theorem textOf?_append {front rest : String} (noStage : textOf? front = none)
    (whole : front.toList.getLast?.all (· == '\n'))
    (opens : (stagePragma.read? rest.toList).isSome) :
    textOf? (front ++ rest) = some front := by
  have nothing := textOf?_eq_none.mp noStage
  have start : lineStart (front.toList.getLast?.or none) := by
    rw [Option.or_none]
    exact whole
  obtain ⟨found, read⟩ := Option.isSome_iff_exists.mp opens
  rw [textOf?, findAll, String.toList_append,
    findAllFrom_lines_none staysOnLine_stagePragma nothing whole]
  cases shape : rest.toList with
  | nil =>
    rw [shape] at read
    cases read
  | cons c others => simp_all [findAllFrom, slice]

end WebShader.Preamble
