import WebShader.Text.Basic

/-!
Contract: cutting a text into lines and joining lines are inverse.

Owns: texts that trimming leaves as they are, the laws of `splitAtEach`, and
from them those of `lines` and `unlines`.

A list of lines is recovered from the joined text if no line holds a line feed
and there is at least one line: the empty text is one empty line.
-/

namespace WebShader.Text

open List

variable {c : Char} {inClass : Char → Bool} {text : List Char}

theorem trimEndWhere_eq_self (last : text.getLast?.any inClass = false) :
    trimEndWhere inClass text = text := by
  have kept : text.reverse.dropWhile inClass = text.reverse := by
    cases reversed : text.reverse with
    | nil => rfl
    | cons c rest => simp_all
  rw [trimEndWhere, kept, reverse_reverse]

theorem trimWhere_eq_self (first : text.head?.any inClass = false)
    (last : text.getLast?.any inClass = false) : trimWhere inClass text = text := by
  have kept : text.dropWhile inClass = text := by
    cases text with
    | nil => rfl
    | cons c rest => rw [dropWhile_cons_of_neg (by simpa using first)]
  rw [trimWhere, kept, trimEndWhere_eq_self last]

theorem trimWhere_of_none (none : ∀ c ∈ text, inClass c = false) :
    trimWhere inClass text = text := by
  apply trimWhere_eq_self
  · cases head : text.head? with
    | none => rfl
    | some c => exact none c (mem_of_mem_head? head)
  grind

theorem trimWhere_cons (inside : inClass c) (text : List Char) :
    trimWhere inClass (c :: text) = trimWhere inClass text := by
  rw [trimWhere, trimWhere, dropWhile_cons_of_pos inside]

theorem trimEndWhere_append_singleton (inside : inClass c) (text : List Char) :
    trimEndWhere inClass (text ++ [c]) = trimEndWhere inClass text := by
  rw [trimEndWhere, trimEndWhere, reverse_append, reverse_singleton,
    singleton_append, dropWhile_cons_of_pos inside]

theorem trimEndWhere_append {first : List Char} (solid : ∀ c ∈ first, inClass c = false)
    (second : List Char) :
    trimEndWhere inClass (first ++ second) = first ++ trimEndWhere inClass second := by
  have kept : first.reverse.dropWhile inClass = first.reverse := by
    cases reversed : first.reverse with
    | nil => rfl
    | cons c rest => simp_all
  grind [trimEndWhere, dropWhile_append]

/-- Trimming at the end leaves the first character, or nothing. -/
theorem head?_trimEndWhere (text : List Char) :
    (trimEndWhere inClass text).head? = none ∨ (trimEndWhere inClass text).head? = text.head? := by
  obtain ⟨dropped, shape⟩ := dropWhile_suffix inClass (l := text.reverse)
  have parts : text = trimEndWhere inClass text ++ dropped.reverse := by
    rw [trimEndWhere, ← reverse_append, shape, reverse_reverse]
  cases front : trimEndWhere inClass text with
  | nil => exact .inl rfl
  | cons c rest => grind

theorem trimEndWhere_length (text : List Char) :
    (trimEndWhere inClass text).length ≤ text.length := by
  have shorter := (dropWhile_suffix (l := text.reverse) inClass).length_le
  rwa [length_reverse, ← length_reverse] at shorter

/-- A text that trimming keeps starts and ends outside the class. -/
theorem ends_of_trimWhere_eq (same : trimWhere inClass text = text) :
    text.head?.any inClass = false ∧ text.getLast?.any inClass = false := by
  have dropped : text.dropWhile inClass = text := by
    apply (dropWhile_suffix inClass).eq_of_length_le
    calc text.length = (trimWhere inClass text).length := by rw [same]
      _ ≤ (text.dropWhile inClass).length := trimEndWhere_length _
  have first : text.head?.any inClass = false := by
    cases text with
    | nil => rfl
    | cons c rest => grind [dropWhile_cons_of_pos, dropWhile_suffix, length_cons]
  refine ⟨first, ?_⟩
  rw [trimWhere, trimEndWhere] at same
  rw [← head?_reverse]
  cases shape : text.reverse with
  | nil => rfl
  | cons c rest => grind [dropWhile_cons_of_pos, dropWhile_suffix]

end WebShader.Text

namespace WebShader.Text

open List

variable {sep : Char} {piece text : List Char} {pieces back : List String}

theorem splitAtEach_eq (sep : Char) (text : List Char) :
    splitAtEach sep text = text.splitOn sep := by
  induction text with
  | nil => rfl
  | cons c rest ih =>
    obtain ⟨piece, others, shape⟩ := exists_cons_of_ne_nil (splitOn_ne_nil sep rest)
    have step : (c :: rest).splitOn sep =
        if c == sep then [] :: rest.splitOn sep else (rest.splitOn sep).modifyHead (cons c) :=
      splitOnP_cons_eq_if_modifyHead c rest
    rw [splitAtEach, ih, step, shape, modifyHead_cons]

/-- Pieces without the separator are recovered from the joined text. -/
theorem splitAtEach_intercalate {joint : String} (single : joint.toList = [sep])
    (nonempty : pieces ≠ []) (absent : ∀ piece ∈ pieces, sep ∉ piece.toList) :
    splitAtEach sep (joint.intercalate pieces).toList = pieces.map String.toList := by
  rw [String.toList_intercalate, single, splitAtEach_eq]
  exact splitOn_intercalate sep (by simpa using absent) (by simpa using nonempty)

theorem intercalate_splitAtEach {joint : String} (single : joint.toList = [sep]) (text : String) :
    joint.intercalate ((splitAtEach sep text.toList).map String.ofList) = text := by
  rw [← String.toList_inj, String.toList_intercalate, single, splitAtEach_eq]
  simp [intercalate_splitOn]

theorem splitAtEach_append {rest : List Char} (absent : sep ∉ piece) :
    splitAtEach sep (piece ++ sep :: rest) = piece :: splitAtEach sep rest := by
  induction piece with
  | nil => simp [splitAtEach]
  | cons c tail ih => grind [splitAtEach]

theorem splitAtEach_ne_nil (sep : Char) (text : List Char) : splitAtEach sep text ≠ [] := by
  rw [splitAtEach_eq]
  exact splitOn_ne_nil sep text

/-- Pieces take their characters from the text. -/
theorem subset_of_mem_splitAtEach (mem : piece ∈ splitAtEach sep text) : piece ⊆ text := by
  induction text generalizing piece with
  | nil =>
    obtain rfl := mem_singleton.mp mem
    exact List.Subset.refl _
  | cons c rest ih =>
    rw [splitAtEach] at mem
    split at mem
    · grind
    · obtain ⟨first, others, shape⟩ := exists_cons_of_ne_nil (splitAtEach_ne_nil sep rest)
      simp only [shape] at mem ih
      rcases mem_cons.mp mem with rfl | later
      · exact cons_subset_cons _ (ih mem_cons_self)
      grind

/-- No piece has the separator. -/
theorem not_mem_of_mem_splitAtEach (mem : piece ∈ splitAtEach sep text) : sep ∉ piece := by
  induction text generalizing piece with
  | nil =>
    obtain rfl := mem_singleton.mp mem
    exact not_mem_nil
  | cons c rest ih =>
    rw [splitAtEach] at mem
    split at mem
    · grind
    next other =>
      grind

theorem mem_intercalate {sep : String} {parts : List String} {c : Char}
    (mem : c ∈ (String.intercalate sep parts).toList) :
    c ∈ sep.toList ∨ ∃ part ∈ parts, c ∈ part.toList := by
  induction parts with
  | nil => simp at mem
  | cons part others ih =>
    cases others with
    | nil => exact .inr ⟨part, by simp, by simpa using mem⟩
    | cons next further =>
      rw [String.intercalate_cons_of_ne_nil (cons_ne_nil _ _), String.toList_append,
        String.toList_append] at mem
      grind

theorem lines_ne_nil (text : String) : lines text ≠ [] := by
  simp [lines, splitAtEach_ne_nil]

@[simp] theorem unlines_nil : unlines [] = "" := by
  simp [unlines]

@[simp] theorem unlines_singleton (piece : String) : unlines [piece] = piece := by
  simp [unlines]

theorem unlines_cons (piece : String) (nonempty : pieces ≠ []) :
    unlines (piece :: pieces) = piece ++ "\n" ++ unlines pieces :=
  String.intercalate_cons_of_ne_nil nonempty

theorem not_mem_of_mem_lines {text line : String} (mem : line ∈ lines text) :
    '\n' ∉ line.toList := by
  obtain ⟨piece, listed, rfl⟩ := mem_map.mp mem
  rw [String.toList_ofList]
  exact not_mem_of_mem_splitAtEach listed

theorem lines_append {piece : String} (rest : String) (absent : '\n' ∉ piece.toList) :
    lines (piece ++ "\n" ++ rest) = piece :: lines rest := by simp_all [lines, splitAtEach_append]

/-- Lines without line feeds are recovered from the joined text. -/
theorem lines_unlines (nonempty : pieces ≠ [])
    (single : ∀ piece ∈ pieces, '\n' ∉ piece.toList) : lines (unlines pieces) = pieces := by
  rw [lines, unlines, splitAtEach_intercalate rfl nonempty single]
  simp [Function.comp_def]

theorem unlines_lines (text : String) : unlines (lines text) = text :=
  intercalate_splitAtEach rfl text

/-- Pieces in front of others are each followed by the separator. -/
theorem intercalate_append {joint : String} (front : List String) (present : back ≠ []) :
    joint.intercalate (front ++ back) =
      String.join (front.map (· ++ joint)) ++ joint.intercalate back := by
  induction front with
  | nil => simp
  | cons piece others ih =>
    rw [cons_append, String.intercalate_cons_of_ne_nil (by simp [present]), ih]
    simp [String.append_assoc]

theorem unlines_append (front : List String) (present : back ≠ []) :
    unlines (front ++ back) = String.join (front.map (· ++ "\n")) ++ unlines back :=
  intercalate_append front present

theorem unlines_append_of_ne_nil {front : List String} (first : front ≠ [])
    (second : back ≠ []) : unlines (front ++ back) = unlines front ++ "\n" ++ unlines back :=
  String.intercalate_append_of_ne_nil first second

end WebShader.Text
