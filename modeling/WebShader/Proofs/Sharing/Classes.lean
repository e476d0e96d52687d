import WebShader.Proofs.Run
import WebShader.Proofs.Token.Relexing
import WebShader.Sharing.Classification

/-!
Contract: what the class of a global says about the stages.

Owns: for the classes that are carried, what the stages do with the global.
-/

namespace WebShader.Sharing

open List Token

variable {facts : Facts} {target : GlobalVariable} {constants given globals : List GlobalVariable}
  {wanted written : List String} {tokens : List Token}
  {fragment name parameterPrefix source vertex : String}

theorem mem_assignSharing (mem : target ∈ (assignSharing facts constants globals).value) :
    ∃ given : GlobalVariable,
      target = { given with sharing := (sharingOf facts constants given).value } := by
  induction globals with
  | nil => cases mem
  | cons first rest ih =>
    rcases mem_cons.mp mem with rfl | later
    · exact ⟨first, rfl⟩
    · exact ih later

theorem map_name_assignSharing (facts : Facts) (constants globals : List GlobalVariable) :
    (assignSharing facts constants globals).value.map GlobalVariable.name =
      globals.map GlobalVariable.name := by
  induction globals with
  | nil => rfl
  | cons first rest ih =>
    exact congrArg (first.name :: ·) ih

theorem sharingOfVariable_value (facts : Facts) (target : GlobalVariable) :
    (sharingOfVariable facts target).value =
      if facts.vertexWrites.contains target.name && facts.fragmentUses.contains target.name &&
          !isCarriable target then .stageLocal
      else if facts.vertexWrites.contains target.name &&
          facts.fragmentWrites.contains target.name then .bothStages
      else if facts.vertexWrites.contains target.name &&
          facts.fragmentUses.contains target.name then .vertexChannel
      else .stageLocal := by
  unfold sharingOfVariable
  generalize facts.vertexWrites.contains target.name = inVertex
  generalize facts.fragmentUses.contains target.name = isUsed
  generalize facts.fragmentWrites.contains target.name = inFragment
  generalize isCarriable target = carriable
  cases inVertex <;> cases isUsed <;> cases inFragment <;> cases carriable <;> rfl

/-- Only variables are carried. -/
theorem sharingOf_value {given : GlobalVariable}
    (carried : (sharingOf facts constants given).value ∈ [Sharing.vertexChannel, .bothStages]) :
    (sharingOf facts constants given).value = (sharingOfVariable facts given).value := by
  rw [sharingOf] at carried ⊢
  split at carried
  · simp at carried
  next unclaimed =>
    rw [if_neg unclaimed]
    split at carried
    · simp at carried
    next changing => rw [if_neg changing]

/-- A channel takes the place of globals that the vertex stage alone writes. -/
theorem sharingOf_vertexChannel {given : GlobalVariable}
    (shared : (sharingOf facts constants given).value = .vertexChannel) :
    isCarriable given ∧ given.name ∉ facts.fragmentWrites := by
  grind [sharingOf_value, sharingOfVariable_value]

theorem sharingOf_bothStages {given : GlobalVariable}
    (shared : (sharingOf facts constants given).value = .bothStages) :
    given.name ∈ facts.vertexWrites ∧ given.name ∈ facts.fragmentWrites := by
  grind [sharingOf_value, sharingOfVariable_value]

/-- What is carried is written in the vertex stage. -/
theorem sharingOf_written {given : GlobalVariable}
    (carried : (sharingOf facts constants given).value ∈ [Sharing.vertexChannel, .bothStages]) :
    given.name ∈ facts.vertexWrites := by
  rw [sharingOf_value carried, sharingOfVariable_value] at carried
  grind

/-! Written names. -/

theorem mem_writtenFrom {prev : Option Token} {code : List Placed}
    (finds : Usage.writtenFrom tokens wanted parameterPrefix prev code = .ok written)
    (mem : name ∈ written) :
    ∃ entry ∈ code, entry.token.kind = .ident ∧ entry.token.text = name := by
  induction code generalizing prev written with
  | nil =>
    cases finds
    cases mem
  | cons entry rest ih =>
    have later : ∀ {others}, Usage.writtenFrom tokens wanted parameterPrefix (some entry.token)
        rest = .ok others → name ∈ others → ∃ found ∈ entry :: rest,
          found.token.kind = .ident ∧ found.token.text = name := by
      intro others findsOthers listed
      obtain ⟨found, foundListed, facts⟩ := ih findsOthers listed
      exact ⟨found, mem_cons_of_mem _ foundListed, facts⟩
    rw [Usage.writtenFrom] at finds
    split at finds
    next isName =>
      simp only [Token.isWordIn] at isName
      obtain ⟨isWritten, -, further⟩ := bind_ok finds
      obtain ⟨others, findsOthers, last⟩ := bind_ok further
      obtain rfl := Except.ok.inj last
      grind
    · obtain ⟨_, here, further⟩ := bind_ok finds
      simp_all

theorem mem_codeFrom {onLine : Bool} {index : Nat} {entry : Placed}
    (mem : entry ∈ codeFrom onLine index tokens) : entry.token ∈ tokens := by
  induction tokens generalizing onLine index with
  | nil => cases mem
  | cons token rest ih =>
    rw [codeFrom] at mem
    grind

theorem mem_lex_of_written (finds : Usage.written wanted parameterPrefix source = .ok written)
    (mem : name ∈ written) : ∃ token ∈ lex source, token.isWord name := by
  obtain ⟨entry, listed, ident, rfl⟩ := mem_writtenFrom finds mem
  exact ⟨entry.token, mem_codeFrom listed, by simp [Token.isWord, ident]⟩

theorem isName_of_written (finds : Usage.written wanted parameterPrefix source = .ok written)
    (mem : name ∈ written) : isName name.toList := by
  obtain ⟨entry, listed, ident, rfl⟩ := mem_writtenFrom finds mem
  have token := mem_lex (mem_codeFrom listed)
  have alone := (splits_lexemes source.toList).singleton token
  obtain ⟨rest, -, leads, -⟩ := alone.cons_inv
  rw [lexeme, ident] at leads
  exact isName_of_frontToken leads

/-- Classes are assigned by facts about the stages. -/
theorem classify_ok {constants : List String}
    (classifies : (classify parameterPrefix constants given vertex fragment).run.value =
      .ok globals) :
    ∃ (facts : Facts) (found : List GlobalVariable),
      Usage.written (given.map GlobalVariable.name) parameterPrefix vertex = .ok facts.vertexWrites ∧
        globals = (assignSharing facts found given).value := by
  obtain ⟨facts, collects, assigns⟩ := bind_value_ok classifies
  have collected := lift_value_ok collects
  obtain ⟨vertexWrites, vertexFinds, further⟩ := bind_ok collected
  obtain ⟨fragmentWrites, -, last⟩ := bind_ok further
  obtain rfl := Except.ok.inj last
  exact ⟨_, _, vertexFinds, (Except.ok.inj assigns).symm⟩

theorem map_name_classify {constants : List String}
    (classifies : (classify parameterPrefix constants given vertex fragment).run.value =
      .ok globals) : globals.map GlobalVariable.name = given.map GlobalVariable.name := by
  obtain ⟨facts, found, -, rfl⟩ := classify_ok classifies
  exact map_name_assignSharing facts found given

/-- What is carried is an identifier of the vertex stage. -/
theorem classify_written {constants : List String}
    (classifies : (classify parameterPrefix constants given vertex fragment).run.value =
      .ok globals) (mem : target ∈ globals)
    (carried : target.sharing ∈ [Sharing.vertexChannel, .bothStages]) :
    ∃ token ∈ lex vertex, token.isWord target.name := by
  obtain ⟨facts, found, vertexFinds, rfl⟩ := classify_ok classifies
  obtain ⟨original, rfl⟩ := mem_assignSharing mem
  exact mem_lex_of_written vertexFinds (@sharingOf_written facts found original carried)

/-- What the classes say together. -/
structure Classified (globals : List GlobalVariable) : Prop where
  carriable : ∀ target ∈ globals, target.sharing = .vertexChannel → isCarriable target = true
  named : ∀ target ∈ globals, target.sharing = .bothStages → isName target.name.toList = true
  distinct : ∀ first ∈ globals, ∀ second ∈ globals, first.sharing = .vertexChannel →
    second.sharing = .bothStages → second.name ≠ first.name

theorem classify_classified {constants : List String}
    (classifies : (classify parameterPrefix constants given vertex fragment).run.value =
      .ok globals) : Classified globals := by
  obtain ⟨facts, found, vertexFinds, rfl⟩ := classify_ok classifies
  refine ⟨?_, ?_, ?_⟩
  · intro target mem shared
    obtain ⟨original, rfl⟩ := mem_assignSharing mem
    exact (sharingOf_vertexChannel shared).1
  · intro target mem shared
    obtain ⟨original, rfl⟩ := mem_assignSharing mem
    exact isName_of_written vertexFinds (sharingOf_bothStages shared).1
  · intro first firstMember second secondMember firstShared secondShared same
    obtain ⟨firstOriginal, rfl⟩ := mem_assignSharing firstMember
    obtain ⟨secondOriginal, rfl⟩ := mem_assignSharing secondMember
    have written := (sharingOf_bothStages secondShared).2
    have unwritten := (sharingOf_vertexChannel firstShared).2
    grind

end WebShader.Sharing
