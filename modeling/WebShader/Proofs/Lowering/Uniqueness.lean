import WebShader.Proofs.Lowering.CodeUniforms

/-!
Contract: how often the code of a lowered source declares a uniform.

Owns: the uniforms that bindings and parameters ask for, those of them that a
source gets, and when a used one is declared exactly once.

Lowering sees the uniforms that a source already has by its lines, and code has
them by its declarators. A used name is declared once exactly where the two
agree on it.
-/

namespace WebShader.Lowering

open List Token
open Text
open Sharing

variable {context : Context} {referenced : List String} {name source : String}

/-! Candidates. -/

/-- The uniform that a sampler, a block member or a parameter asks for by its name. A macro
provides a parameter whose uniform has the plain name. -/
inductive Asks (context : Context) (macros : List String) : String → String → Prop
  | sampler {binding : Binding} {name : String} (listed : binding ∈ context.bindings)
      (kind : binding.kind = .sampler) (named : binding.instanceName = some name) :
      Asks context macros name name
  | member {binding : Binding} {name : String} (listed : binding ∈ context.bindings)
      (kind : binding.kind ≠ .sampler) (held : name ∈ binding.memberNames) :
      Asks context macros name (context.flatName name)
  | parameter {name : String} (listed : name ∈ context.parameterNames)
      (provided : ¬(context.flatName name = name ∧ name ∈ macros)) :
      Asks context macros name (context.flatName name)

/-- A uniform that a source uses: something asks for it, and the source refers to it or to the
global that it feeds. -/
def Used (context : Context) (source name : String) : Prop :=
  ∃ plain, Asks context (definedMacros source) plain name ∧
    isNeeded (references source) plain name = true

/-- The uniforms that a source declares, as its lines show them. -/
def lineUniforms (source : String) : List String :=
  (declaredUniforms source).map Uniform.name

def candidates (context : Context) (source : String) : List Candidate :=
  context.bindings.flatMap (bindingCandidates context (references source)) ++
    context.parameterNames.filterMap
      (parameterCandidate? context (references source) (definedMacros source))

theorem neededUniforms_eq (context : Context) (source : String) :
    neededUniforms context source = undeclared (lineUniforms source) (candidates context source) :=
  rfl

theorem isNeeded_self (referenced : List String) (name : String) :
    isNeeded referenced name name = referenced.contains name := by
  simp [isNeeded]

theorem mem_bindingCandidates_sampler {binding : Binding} (kind : binding.kind = .sampler) :
    name ∈ (bindingCandidates context referenced binding).map Candidate.name ↔
      binding.instanceName = some name ∧ isNeeded referenced name name := by
  rw [bindingCandidates, kind, isNeeded_self]
  cases named : binding.instanceName with
  | none => simp
  | some other =>
    grind

theorem mem_bindingCandidates_block {binding : Binding} (kind : binding.kind ≠ .sampler) :
    name ∈ (bindingCandidates context referenced binding).map Candidate.name ↔
      ∃ plain ∈ binding.memberNames, context.flatName plain = name ∧
        isNeeded referenced plain name := by
  rw [bindingCandidates]
  split
  next sampler => exact absurd sampler kind
  · simp only [Binding.memberNames]
    grind

theorem parameterCandidate?_eq_some {macros : List String} {plain : String} {candidate : Candidate} :
    parameterCandidate? context referenced macros plain = some candidate ↔
      plain ∉ blockMembers context ∧ ¬(context.flatName plain = plain ∧ plain ∈ macros) ∧
        isNeeded referenced plain (context.flatName plain) ∧
        candidate = ⟨"float", context.flatName plain, ""⟩ := by
  rw [parameterCandidate?]
  split
  next held => simp_all
  next free =>
    split
    next provided => simp_all
    grind

theorem mem_blockMembers :
    name ∈ blockMembers context ↔
      ∃ binding ∈ context.bindings, binding.kind ≠ .sampler ∧ name ∈ binding.memberNames := by
  simp only [blockMembers, mem_flatMap, mem_filter, bne_iff_ne, and_assoc]

theorem Used.of_candidate (listed : name ∈ (candidates context source).map Candidate.name) :
    Used context source name := by
  rw [candidates, map_append, map_flatMap, mem_append, mem_flatMap] at listed
  rcases listed with ⟨binding, mem, inBinding⟩ | inParameters
  · by_cases kind : binding.kind = .sampler
    · obtain ⟨named, needed⟩ := (mem_bindingCandidates_sampler kind).mp inBinding
      exact ⟨name, .sampler mem kind named, needed⟩
    · obtain ⟨plain, held, rfl, needed⟩ := (mem_bindingCandidates_block kind).mp inBinding
      exact ⟨plain, .member mem kind held, needed⟩
  · obtain ⟨candidate, isCandidate, rfl⟩ := mem_map.mp inParameters
    obtain ⟨plain, parameter, found⟩ := mem_filterMap.mp isCandidate
    obtain ⟨-, provided, needed, rfl⟩ := parameterCandidate?_eq_some.mp found
    exact ⟨plain, .parameter parameter provided, needed⟩

theorem Used.mem_candidates (used : Used context source name) :
    name ∈ (candidates context source).map Candidate.name := by
  obtain ⟨plain, asks, needed⟩ := used
  rw [candidates, map_append, map_flatMap, mem_append, mem_flatMap]
  cases asks with
  | sampler listed kind named =>
    exact .inl ⟨_, listed, (mem_bindingCandidates_sampler kind).mpr ⟨named, needed⟩⟩
  | member listed kind held =>
    exact .inl ⟨_, listed, (mem_bindingCandidates_block kind).mpr ⟨_, held, rfl, needed⟩⟩
  | parameter listed provided =>
    by_cases held : plain ∈ blockMembers context
    · -- The member of that name asks for the same uniform.
      obtain ⟨binding, mem, kind, inBlock⟩ := mem_blockMembers.mp held
      exact .inl ⟨binding, mem,
        (mem_bindingCandidates_block kind).mpr ⟨plain, inBlock, rfl, needed⟩⟩
    · have found := parameterCandidate?_eq_some.mpr ⟨held, provided, needed, rfl⟩
      grind

/-! New uniforms. -/

theorem mem_undeclared {declared : List String} {candidates : List Candidate} :
    name ∈ (undeclared declared candidates).map Candidate.name ↔
      name ∉ declared ∧ name ∈ candidates.map Candidate.name := by
  induction candidates generalizing declared with
  | nil => simp [undeclared]
  | cons candidate rest ih =>
    rw [undeclared]
    split
    next known => grind
    grind

theorem undeclared_nodup (declared : List String) (candidates : List Candidate) :
    ((undeclared declared candidates).map Candidate.name).Nodup := by
  induction candidates generalizing declared with
  | nil => exact nodup_nil
  | cons candidate rest ih => grind [undeclared, mem_undeclared]

/-- A source gets the uniforms that it uses and whose declarations are not seen. -/
theorem mem_added :
    name ∈ (added context source).map Candidate.name ↔
      name ∉ lineUniforms (prepared context source) ∧
        Used context (prepared context source) name := by
  rw [added, neededUniforms_eq, mem_undeclared]
  exact and_congr_right fun _ => ⟨Used.of_candidate, Used.mem_candidates⟩

theorem added_nodup (context : Context) (source : String) :
    ((added context source).map Candidate.name).Nodup := by
  exact undeclared_nodup _ _

/-! Whole sources. -/

/-- What new declarations need of a source: a place outside of other declarations, and lexemes
of their own. -/
structure Declarable (context : Context) (source : String) : Prop where
  opens : added context source = [] ∨ Open (prepared context source)
  wellFormed : ∀ candidate ∈ added context source, candidate.WellFormed

namespace Declarable

variable {context : Context} {source : String} (declarable : Declarable context source)
include declarable

theorem count_eq (name : String) :
    (codeUniforms (lower context source).value).count name =
      ((added context source).map Candidate.name).count name +
        (codeUniforms (prepared context source)).count name := by
  rw [lower_value]
  rcases declarable.opens with none | isOpen
  · rw [none]
    simp [insertDeclarations]
  · exact codeUniforms_insertDeclarations isOpen declarable.wellFormed name

theorem references_lower (listed : name ∈ references (lower context source).value) :
    name ∈ references (prepared context source) ∨
      ∃ candidate ∈ added context source, name = candidate.name ∨ name ∈ candidate.words := by
  rw [lower_value] at listed
  rcases declarable.opens with none | isOpen
  · rw [none] at listed
    exact .inl listed
  · exact references_insertDeclarations isOpen declarable.wellFormed listed

/-- A uniform that lowered code refers to is used, if it is not merely the type or in the size
of another one. -/
theorem used {plain : String}
    (asks : Asks context (definedMacros (prepared context source)) plain name)
    (listed : name ∈ references (lower context source).value)
    (apart : ∀ candidate ∈ added context source, name ∉ candidate.words) :
    Used context (prepared context source) name := by
  rcases declarable.references_lower listed with before | ⟨candidate, mem, rfl | inWords⟩
  · refine ⟨plain, asks, ?_⟩
    simp [isNeeded, before]
  · exact (mem_added.mp (mem_map_of_mem mem)).2
  · exact absurd inWords (apart candidate mem)

theorem count_used (used : Used context (prepared context source) name) :
    (codeUniforms (lower context source).value).count name =
      (if name ∈ lineUniforms (prepared context source) then 0 else 1) +
        (codeUniforms (prepared context source)).count name := by
  rw [declarable.count_eq]
  by_cases seen : name ∈ lineUniforms (prepared context source)
  · have absent : name ∉ (added context source).map Candidate.name :=
      fun listed => (mem_added.mp listed).1 seen
    rw [if_pos seen, count_eq_zero.mpr absent]
  · have present : name ∈ (added context source).map Candidate.name :=
      mem_added.mpr ⟨seen, used⟩
    have positive := count_pos_iff.mpr present
    have single := nodup_iff_count.mp (added_nodup context source) name
    rw [if_neg seen]
    omega

/-- The other uniforms are left as they are. -/
theorem count_unused (unused : ¬Used context (prepared context source) name) :
    (codeUniforms (lower context source).value).count name =
      (codeUniforms (prepared context source)).count name := by
  have absent : ((added context source).map Candidate.name).count name = 0 :=
    count_eq_zero.mpr fun listed => unused (mem_added.mp listed).2
  rw [declarable.count_eq, absent, Nat.zero_add]

theorem nodup_iff :
    (codeUniforms (lower context source).value).Nodup ↔
      (codeUniforms (prepared context source)).Nodup ∧
        ∀ name, Used context (prepared context source) name →
          name ∈ codeUniforms (prepared context source) →
          name ∈ lineUniforms (prepared context source) := by
  simp only [nodup_iff_count]
  constructor
  · intro distinct
    refine ⟨fun name => ?_, fun name used declared => ?_⟩
    · have total := distinct name
      rw [declarable.count_eq] at total
      omega
    · have total := distinct name
      have present := count_pos_iff.mpr declared
      rw [declarable.count_used used] at total
      split at total
      · assumption
      · omega
  · rintro ⟨distinct, shown⟩ name
    have before := distinct name
    by_cases used : Used context (prepared context source) name
    · rw [declarable.count_used used]
      grind
    · rw [declarable.count_unused used]
      exact before

end Declarable

/-- A uniform that lowered code refers to is declared exactly once iff the declarations in front
of the new ones are none where no line shows it, and one where a line does. No uniform is declared
twice iff none is before, and every used one that code declares is shown by a line. -/
theorem lower_declares_once {context : Context} {source : String}
    (declarable : Declarable context source) :
    (∀ plain name, Asks context (definedMacros (prepared context source)) plain name →
      name ∈ references (lower context source).value →
      (∀ candidate ∈ added context source, name ∉ candidate.words) →
      ((codeUniforms (lower context source).value).count name = 1 ↔
        (codeUniforms (prepared context source)).count name =
          if name ∈ lineUniforms (prepared context source) then 1 else 0)) ∧
    ((codeUniforms (lower context source).value).Nodup ↔
      (codeUniforms (prepared context source)).Nodup ∧
        ∀ name, Used context (prepared context source) name →
          name ∈ codeUniforms (prepared context source) →
          name ∈ lineUniforms (prepared context source)) := by
  refine ⟨fun plain name asks referred apart => ?_, declarable.nodup_iff⟩
  rw [declarable.count_used (declarable.used asks referred apart)]
  split <;> omega

def frameContext : Context where
  bindings := [⟨.uniformBlock, 0, none, "Frame", some "p",
    [⟨"float", "a", ""⟩, ⟨"float", "b", ""⟩, ⟨"float", "c", ""⟩], 0, 0⟩]
  parameterNames := []
  globals := []
  parameterPrefix := "PARAM_"

/-- A comment with a declaration in it, and a declaration with two declarators. -/
def hiddenSource : String :=
  "/*\nuniform float a;\n*/\nuniform float b, c;\nfloat x = p.a * p.b * p.c;\n"

def hiddenPrepared : String :=
  "/*\nuniform float a;\n*/\nuniform float b, c;\nfloat x = a * b * c;\n"

theorem lower_declares_once_hidden :
    Declarable frameContext hiddenSource ∧
      (codeUniforms (lower frameContext hiddenSource).value).count "b" = 1 ∧
      (codeUniforms (lower frameContext hiddenSource).value).count "a" ≠ 1 ∧
      (codeUniforms (lower frameContext hiddenSource).value).count "c" ≠ 1 ∧
      ¬(codeUniforms (lower frameContext hiddenSource).value).Nodup := by
  -- The passes are evaluated once; what follows is about the texts.
  have ready : prepared frameContext hiddenSource = hiddenPrepared := by decide +kernel
  have new : added frameContext hiddenSource = [⟨"float", "c", ""⟩] := by
    rw [added, ready]
    decide +kernel
  have lowered : (lower frameContext hiddenSource).value =
      "uniform float c;\n" ++ hiddenPrepared := by
    rw [lower_value, new, ready]
    decide +kernel
  have isOpen : Open hiddenPrepared :=
    ⟨⟨by decide +kernel, by decide +kernel⟩, by decide +kernel⟩
  have declarable : Declarable frameContext hiddenSource :=
    ⟨.inr (ready ▸ isOpen), by rw [new]; decide +kernel⟩
  have code : codeUniforms hiddenPrepared = ["b", "c"] := by decide +kernel
  have lines : lineUniforms hiddenPrepared = ["a", "b"] := by decide +kernel
  have asks {name : String} (held : name ∈ ["a", "b", "c"]) :
      Asks frameContext (definedMacros hiddenPrepared) name name :=
    .member List.mem_cons_self nofun held
  have used : Used frameContext hiddenPrepared "c" :=
    ⟨"c", asks (by simp), by decide +kernel⟩
  have referred : ∀ name ∈ ["a", "b", "c"],
      name ∈ references ("uniform float c;\n" ++ hiddenPrepared) := by
    decide +kernel
  have apart : ∀ name ∈ ["a", "b", "c"], ∀ candidate ∈ [Candidate.mk "float" "c" ""],
      name ∉ candidate.words := by
    decide +kernel
  have once := lower_declares_once declarable
  rw [ready, new, code, lines] at once
  refine ⟨declarable, ?_⟩
  rw [lowered] at once ⊢
  obtain ⟨each, distinct⟩ := once
  have counts {name : String} (held : name ∈ ["a", "b", "c"]) :=
    each name name (asks held) (referred name held) (apart name held)
  grind

end WebShader.Lowering
