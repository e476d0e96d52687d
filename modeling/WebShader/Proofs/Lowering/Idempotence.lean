import WebShader.Proofs.Lowering.Access
import WebShader.Proofs.Lowering.SelfDefinition
import WebShader.Proofs.Lowering.Uniqueness
import WebShader.Proofs.Sharing.Fronted

/-!
Contract: what lowering does to a source that it has lowered.

Owns: the passes that leave such a source as it is, and when a second run
changes nothing.

A new declaration brings names of its own, its type and those in its size. The
first run declares what the source itself refers to, and the second one also
sees these names.
-/

namespace WebShader.Lowering

open List Token
open Text
open Sharing

variable {context : Context} {source : String}

/-! Passes in front of the declarations. -/

theorem removeBindings_unbound (unbound : (Binding.table source).value = []) :
    (removeBindings source).value = source := by
  rw [removeBindings, Noted.value_bind, unbound]
  exact String.ofList_toList

/-- Where no access is left, every lexeme is kept. -/
theorem Flattens.eq_of_flat {selects : Bool} {pieces flattened : List Lexeme}
    (flattens : Flattens context selects pieces flattened) (flat : Flat context selects pieces) :
    flattened = pieces := by
  induction flattens with
  | nil => rfl
  | access ahead => exact absurd ahead (flat [] _ rfl rfl _ _)
  | keep _ _ ih => rw [ih (@Flat.back _ _ [_] _ flat)]

theorem flattenMembers_of_flat (flat : Flat context false (lexemes source.toList)) :
    (flattenMembers context source).value = source := by
  obtain ⟨flattened, flattens, text⟩ := flattenFrom_performs context none (lex source)
  obtain rfl := flattens.eq_of_flat flat
  exact String.toList_inj.mp (text.trans (splits_lexemes source.toList).text_eq)

/-! New declarations. -/

theorem unlines_linesText {pieces : List String} (present : pieces ≠ []) :
    (unlines pieces).toList ++ ['\n'] = linesText pieces := by
  obtain ⟨front, last, rfl⟩ := (eq_nil_or_concat pieces).resolve_left present
  rw [concat_eq_append, unlines_append front (cons_ne_nil last []), String.toList_append,
    toList_join_lines, linesText_append, append_assoc, linesText_cons]
  rfl

/-- Declarations make a source longer. -/
theorem insertDeclarations_eq_self {declarations : List String} :
    insertDeclarations source declarations = source ↔ declarations = [] := by
  constructor
  · intro same
    by_cases none : declarations = []
    · exact none
    · have before := unlines_linesText (lines_ne_nil source)
      have after := @unlines_linesText ((lines source).takeWhile isHeaderLine ++ declarations ++
        (lines source).dropWhile isHeaderLine) (by simp [none])
      rw [insertDeclarations, if_neg (by simpa using none)] at same
      have parts : linesText (lines source) = linesText ((lines source).takeWhile isHeaderLine) ++
          linesText ((lines source).dropWhile isHeaderLine) := by
        rw [← linesText_append, takeWhile_append_dropWhile]
      rw [unlines_lines] at before
      rw [same, before, parts, linesText_append, linesText_append] at after
      obtain ⟨first, others, rfl⟩ := exists_cons_of_ne_nil none
      have lengths := congrArg length after
      simp only [linesText_cons, length_append, length_cons] at lengths
      omega
  · rintro rfl
    rfl

/-- Nothing has to be declared iff the lines show every uniform that the source uses. -/
theorem neededUniforms_eq_nil : neededUniforms context source = [] ↔
    ∀ name, Used context source name → name ∈ lineUniforms source := by
  rw [← map_eq_nil_iff (f := Candidate.name), eq_nil_iff_forall_not_mem, neededUniforms_eq]
  refine forall_congr' fun name => ?_
  rw [mem_undeclared]
  constructor
  · intro none used
    exact Decidable.byContradiction fun absent => none ⟨absent, used.mem_candidates⟩
  · rintro shown ⟨absent, listed⟩
    exact absent (shown (.of_candidate listed))

/-! A second run. -/

/-- A second run over a source that has no bindings and no definitions of a macro by its own name
left changes nothing iff the lines of the lowered source show every uniform that it uses. -/
theorem lower_idempotent_iff {context : Context} {source : String}
    (lowerable : Lowerable context source)
    (unbound : (Binding.table (lower context source).value).value = [])
    (clean : dropSelfDefinitions (lower context source).value = (lower context source).value) :
    (lower context (lower context source).value).value = (lower context source).value ↔
      ∀ name, Used context (lower context source).value name →
        name ∈ lineUniforms (lower context source).value := by
  have same : prepared context (lower context source).value = (lower context source).value := by
    rw [prepared, flattened, removeBindings_unbound unbound,
      flattenMembers_of_flat (lower_flat lowerable), clean]
  rw [lower_value context (lower context source).value, added, same, insertDeclarations_eq_self,
    map_eq_nil_iff, neededUniforms_eq_nil]

def sizedContext : Context where
  bindings := [⟨.uniformBlock, 0, none, "Blur", some "p", [⟨"float", "w", "[SIZE]"⟩], 0, 0⟩]
  parameterNames := ["SIZE"]
  globals := []
  parameterPrefix := "PARAM_"

theorem lower_idempotent_iff_sized :
    Lowerable sizedContext "float x = p.w[0];\n" ∧
      (lower sizedContext "float x = p.w[0];\n").value =
        "uniform float w[SIZE];\nfloat x = w[0];\n" ∧
      (lower sizedContext "uniform float w[SIZE];\nfloat x = w[0];\n").value ≠
        "uniform float w[SIZE];\nfloat x = w[0];\n" := by
  have lowered : (lower sizedContext "float x = p.w[0];\n").value =
      "uniform float w[SIZE];\nfloat x = w[0];\n" := by decide +kernel
  have lowerable : Lowerable sizedContext "float x = p.w[0];\n" :=
    { names := ⟨.inr (by decide), by decide +kernel⟩
      apart := by decide +kernel
      drops := by decide +kernel
      stands := .inr (by decide +kernel)
      wellFormed := by decide +kernel }
  have again := lower_idempotent_iff lowerable (by rw [lowered]; decide +kernel)
    (by rw [lowered]; decide +kernel)
  rw [lowered] at again
  refine ⟨lowerable, lowered, fun same => ?_⟩
  have used : Used sizedContext "uniform float w[SIZE];\nfloat x = w[0];\n" "SIZE" :=
    ⟨"SIZE", .parameter mem_cons_self (by decide +kernel), by decide +kernel⟩
  have lines : lineUniforms "uniform float w[SIZE];\nfloat x = w[0];\n" = ["w"] := by decide +kernel
  have shown := again.mp same "SIZE" used
  rw [lines] at shown
  exact absurd shown (by decide)

end WebShader.Lowering
