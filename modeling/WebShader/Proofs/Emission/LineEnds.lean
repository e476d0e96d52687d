import WebShader.Emission.Stage
import WebShader.Proofs.Text.Reading

/-!
Contract: what tidying does to the line ends of a text.

Owns: the squeezing of line ends, where a squeezed text may be cut, and the
tidied form of a text around a pair of braces.

A run of line ends becomes a run of at most two, and everything else stays. A
text may therefore be cut in front of any character that is no line end.
-/

namespace WebShader.Emission

open List Text

variable {c : Char} {rest : List Char}

theorem rewriteFrom_anywhere_previous {α : Type} (reader : Reader α) (replacement : α → String)
    (prev : Option Char) (skip : Nat) (text : List Char) :
    rewriteFrom anywhere reader replacement prev skip text =
      rewriteFrom anywhere reader replacement none skip text := by
  cases text with
  | nil => rfl
  | cons c rest => rfl

theorem rewriteFrom_anywhere_skip {α : Type} (reader : Reader α) (replacement : α → String)
    (skip : Nat) (text : List Char) :
    rewriteFrom anywhere reader replacement none skip text =
      rewriteFrom anywhere reader replacement none 0 (text.drop skip) := by
  induction skip generalizing text with
  | zero => rfl
  | succ n ih =>
    cases text with
    | nil => rfl
    | cons c rest =>
      rw [rewriteFrom, rewriteFrom_anywhere_previous, ih, drop_succ_cons]

/-- Three line ends or more in a row become two. -/
def squeezeLineEnds (text : List Char) : List Char :=
  rewriteFrom anywhere manyLineEnds (fun _ => "\n\n") none 0 text

theorem read?_manyLineEnds (text : List Char) :
    manyLineEnds.read? text =
      if ['\n', '\n', '\n'].isPrefixOf text then
        some ((), (text.drop 3).dropWhile (· == '\n'))
      else none := by
  show (((afterPrefix? ['\n', '\n', '\n'] text).map fun rest => ((), rest)).bind fun found =>
    some ((), found.2.dropWhile (· == '\n'))) = _
  grind [afterPrefix?]

theorem squeezeLineEnds_nil : squeezeLineEnds [] = [] := rfl

theorem squeezeLineEnds_cons (few : ['\n', '\n', '\n'].isPrefixOf (c :: rest) = false) :
    squeezeLineEnds (c :: rest) = c :: squeezeLineEnds rest := by
  simp_all [read?_manyLineEnds, squeezeLineEnds, rewriteFrom, rewriteFrom_anywhere_previous]

theorem squeezeLineEnds_other (other : c ≠ '\n') (rest : List Char) :
    squeezeLineEnds (c :: rest) = c :: squeezeLineEnds rest :=
  squeezeLineEnds_cons (by simp [List.isPrefixOf, other.symm])

theorem dropWhile_lineEnds (count : Nat) (ends : rest.head? ≠ some '\n') :
    (List.replicate count '\n' ++ rest).dropWhile (· == '\n') = rest := by
  induction count with
  | zero =>
    cases rest with
    | nil => rfl
    | cons c others => simp_all
  | succ count ih =>
    exact ih

theorem squeezeLineEnds_many (count : Nat) (ends : rest.head? ≠ some '\n') :
    squeezeLineEnds (List.replicate (count + 3) '\n' ++ rest) =
      '\n' :: '\n' :: squeezeLineEnds rest := by
  have shape : List.replicate (count + 3) '\n' ++ rest =
      '\n' :: (List.replicate (count + 2) '\n' ++ rest) := by
    rw [replicate_succ, cons_append]
  have read : manyLineEnds.read? ('\n' :: (List.replicate (count + 2) '\n' ++ rest)) =
      some ((), rest) := by
    rw [read?_manyLineEnds]
    simp only [replicate_succ, cons_append, List.isPrefixOf, drop_succ_cons,
      drop_zero, dropWhile_lineEnds count ends, BEq.rfl, Bool.true_and, if_true]
  have covered : (List.replicate (count + 2) '\n' ++ rest).drop
      ((List.replicate (count + 2) '\n' ++ rest).length - rest.length) = rest := by simp
  rw [shape, squeezeLineEnds, rewriteFrom]
  simp only [anywhere, if_true, read]
  rw [rewriteFrom_anywhere_previous, rewriteFrom_anywhere_skip, covered]
  rfl

theorem few_lineEnds {count : Nat} (few : count < 3) {rest : List Char}
    (ends : rest.head? ≠ some '\n') :
    ['\n', '\n', '\n'].isPrefixOf (List.replicate count '\n' ++ rest) = false := by
  have closed : ∀ wanted, ('\n' :: wanted).isPrefixOf rest = false := by
    intro wanted
    cases rest with
    | nil => rfl
    | cons c others =>
      have other : '\n' ≠ c := fun same => ends (by rw [← same]; rfl)
      simp [List.isPrefixOf, other]
  match count, few with
  | 0, _ => exact closed ['\n', '\n']
  | 1, _ => simpa [List.isPrefixOf] using closed ['\n']
  | 2, _ => simpa [List.isPrefixOf] using closed []

/-- A run of line ends becomes a run of at most two. -/
theorem squeezeLineEnds_run (count : Nat) {rest : List Char} (ends : rest.head? ≠ some '\n') :
    squeezeLineEnds (List.replicate count '\n' ++ rest) =
      List.replicate (min count 2) '\n' ++ squeezeLineEnds rest := by
  rcases count with _ | _ | _ | count
  · rfl
  · exact squeezeLineEnds_cons (@few_lineEnds 1 (by decide) rest ends)
  · have one : squeezeLineEnds ('\n' :: rest) = '\n' :: squeezeLineEnds rest :=
      squeezeLineEnds_cons (@few_lineEnds 1 (by decide) rest ends)
    have two : squeezeLineEnds ('\n' :: '\n' :: rest) = '\n' :: squeezeLineEnds ('\n' :: rest) :=
      squeezeLineEnds_cons (@few_lineEnds 2 (by decide) rest ends)
    show squeezeLineEnds ('\n' :: '\n' :: rest) = '\n' :: '\n' :: squeezeLineEnds rest
    rw [two, one]
  grind [squeezeLineEnds_many]

theorem squeezeLineEnds_run_alone (count : Nat) :
    squeezeLineEnds (List.replicate count '\n') = List.replicate (min count 2) '\n' := by
  have run := @squeezeLineEnds_run count [] (by simp)
  rwa [append_nil, squeezeLineEnds_nil, append_nil] at run

theorem squeezeLineEnds_run_cons (count : Nat) (other : c ≠ '\n') (rest : List Char) :
    squeezeLineEnds (List.replicate count '\n' ++ c :: rest) =
      List.replicate (min count 2) '\n' ++ c :: squeezeLineEnds rest := by
  rw [squeezeLineEnds_run count (by simpa using other), squeezeLineEnds_other other]

/-- Every text is a run of line ends, alone or in front of another character. -/
theorem lineEnds_cases (text : List Char) :
    (∃ count, text = List.replicate count '\n') ∨
      ∃ count c rest, c ≠ '\n' ∧ text = List.replicate count '\n' ++ c :: rest := by
  induction text with
  | nil => exact .inl ⟨0, rfl⟩
  | cons first others ih =>
    by_cases same : first = '\n'
    · subst same
      rcases ih with ⟨count, rfl⟩ | ⟨count, c, rest, other, rfl⟩
      · exact .inl ⟨count + 1, rfl⟩
      · exact .inr ⟨count + 1, c, rest, other, rfl⟩
    · exact .inr ⟨0, first, others, same, rfl⟩

/-- A text may be cut in front of a character that is no line end. -/
theorem squeezeLineEnds_append (left : List Char) {right : List Char}
    (ends : right.head? ≠ some '\n') :
    squeezeLineEnds (left ++ right) = squeezeLineEnds left ++ squeezeLineEnds right := by
  induction length : left.length using Nat.strongRecOn generalizing left with
  | ind size ih =>
    rcases lineEnds_cases left with ⟨count, rfl⟩ | ⟨count, c, rest, other, rfl⟩
    · rw [squeezeLineEnds_run count ends, squeezeLineEnds_run_alone]
    · have shorter : rest.length < size := by
        rw [← length, length_append, length_cons]
        omega
      grind [squeezeLineEnds_run_cons]

theorem exists_squeezeLineEnds_run (count : Nat) (right : List Char) :
    ∃ earlier, squeezeLineEnds (List.replicate count '\n' ++ right) =
      earlier ++ squeezeLineEnds right := by
  -- A run of line ends that goes on into `right` keeps at least as many of them.
  have longer : ∀ more, List.replicate (min (count + more) 2) '\n' =
      List.replicate (min (count + more) 2 - min more 2) '\n' ++
        List.replicate (min more 2) '\n' := by
    intro more
    rw [replicate_append_replicate]
    congr 1
    omega
  rcases lineEnds_cases right with ⟨more, rfl⟩ | ⟨more, c, rest, other, rfl⟩
  · grind [replicate_append_replicate, squeezeLineEnds_run_alone]
  · refine ⟨List.replicate (min (count + more) 2 - min more 2) '\n', ?_⟩
    grind [replicate_append_replicate, squeezeLineEnds_run_cons]

/-- A squeezed text ends in the squeezed form of each of its ends. -/
theorem exists_squeezeLineEnds_append (left right : List Char) :
    ∃ earlier, squeezeLineEnds (left ++ right) = earlier ++ squeezeLineEnds right := by
  induction length : left.length using Nat.strongRecOn generalizing left with
  | ind size ih =>
    rcases lineEnds_cases left with ⟨count, rfl⟩ | ⟨count, c, rest, other, rfl⟩
    · exact exists_squeezeLineEnds_run count right
    · have shorter : rest.length < size := by
        rw [← length, length_append, length_cons]
        omega
      grind [squeezeLineEnds_run_cons]

theorem toList_tidyLines (source : String) :
    (tidyLines source).toList = trimWhere (· == '\n') (squeezeLineEnds source.toList) := by
  rw [tidyLines, String.toList_ofList, toList_replaceAll]
  rfl

theorem dropWhile_append_cons {inClass : Char → Bool} (outside : inClass c = false)
    (left right : List Char) :
    (left ++ c :: right).dropWhile inClass = left.dropWhile inClass ++ c :: right := by
  induction left with
  | nil => simp_all
  | cons first rest ih => grind [dropWhile_cons]

theorem trimEndWhere_append_cons {inClass : Char → Bool} (outside : inClass c = false)
    (left right : List Char) :
    trimEndWhere inClass (left ++ c :: right) = left ++ c :: trimEndWhere inClass right := by
  have turned : (left ++ c :: right).reverse = right.reverse ++ c :: left.reverse := by simp
  rw [trimEndWhere, turned, dropWhile_append_cons outside]
  simp [trimEndWhere]

/-- A tidied text, cut around two characters that are no line ends. -/
theorem trimWhere_squeezeLineEnds {opener closer : Char} (opens : opener ≠ '\n')
    (closes : closer ≠ '\n') (before inside after : List Char) :
    trimWhere (· == '\n') (squeezeLineEnds (before ++ opener :: (inside ++ closer :: after))) =
      (squeezeLineEnds before).dropWhile (· == '\n') ++ opener :: (squeezeLineEnds inside ++
          closer :: trimEndWhere (· == '\n') (squeezeLineEnds after)) := by
  have cutBefore : squeezeLineEnds (before ++ opener :: (inside ++ closer :: after)) =
      squeezeLineEnds before ++
        opener :: (squeezeLineEnds inside ++ closer :: squeezeLineEnds after) := by
    rw [squeezeLineEnds_append before (by simpa using opens), squeezeLineEnds_other opens,
      squeezeLineEnds_append inside (by simpa using closes), squeezeLineEnds_other closes]
  grind [trimWhere, dropWhile_append_cons, trimEndWhere_append_cons]

def squeezed (text : String) : String :=
  String.ofList (squeezeLineEnds text.toList)

def tidyOpening (text : String) : String :=
  String.ofList ((squeezeLineEnds text.toList).dropWhile (· == '\n'))

def tidyEnding (text : String) : String :=
  String.ofList (trimEndWhere (· == '\n') (squeezeLineEnds text.toList))

theorem tidyLines_braces (before inside after : String) :
    tidyLines (before ++ "\x7b" ++ inside ++ "\x7d" ++ after) =
      tidyOpening before ++ "\x7b" ++ squeezed inside ++ "\x7d" ++ tidyEnding after := by
  have cut := @trimWhere_squeezeLineEnds '\x7b' '\x7d' (by decide) (by decide) before.toList
     inside.toList after.toList
  apply String.toList_inj.mp
  rw [toList_tidyLines]
  simpa [tidyOpening, tidyEnding, squeezed] using cut

/-- A statement stands, squeezed, in every squeezed text that holds it. -/
theorem exists_squeezed_statement (left stmt right : String) :
    ∃ earlier, squeezed (left ++ (stmt ++ ";") ++ right) =
      earlier ++ squeezed (stmt ++ ";") ++ squeezed right := by
  have semicolon : ';' ≠ '\n' := by decide
  have cut : ∀ front back : List Char, squeezeLineEnds (front ++ ';' :: back) =
      squeezeLineEnds front ++ ';' :: squeezeLineEnds back := by
    intro front back
    rw [squeezeLineEnds_append front (by simp), squeezeLineEnds_other semicolon]
  obtain ⟨earlier, ends⟩ := exists_squeezeLineEnds_append left.toList stmt.toList
  refine ⟨String.ofList earlier, ?_⟩
  apply String.toList_inj.mp
  have whole := cut (left.toList ++ stmt.toList) right.toList
  have alone := cut stmt.toList []
  rw [squeezeLineEnds_nil] at alone
  simp only [squeezed, String.toList_ofList, String.toList_append]
  grind

end WebShader.Emission
