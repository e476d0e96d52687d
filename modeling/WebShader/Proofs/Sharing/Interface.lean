import WebShader.Proofs.Sharing.Adoption

/-!
Contract: the variables that a stage declares as inputs or outputs.

Owns: the declarations of one side in the code of a source, what edits do to
them, and places outside of them.

A declaration is a side, a type, a name and a semicolon, with the word `flat` in
front or not. Comments and directive lines hold none, whatever they look like.
-/

namespace WebShader.Sharing

open List Token

variable {equals : Bool} {pieces : List Lexeme} {name : String}

structure InterfaceVariable where
  isFlat : Bool
  typeName : String
  name : String
  deriving DecidableEq, Repr

/-- How much of a declaration stands in front of a place in the code. -/
structure Reading where
  afterFlat : Bool
  sided : Option Bool
  typed : Option (Bool × String)
  named : Option InterfaceVariable
  deriving DecidableEq, Repr

variable {side : ChannelSide} {piece : Lexeme} {others : List Lexeme} {other reading : Reading}

namespace Reading

def idle : Reading :=
  ⟨false, none, none, none⟩

def step (side : ChannelSide) (reading : Reading) (piece : Lexeme) : Reading where
  afterFlat := piece == ⟨.ident, "flat".toList⟩
  sided := if piece == ⟨.ident, side.word.toList⟩ then some reading.afterFlat else none
  typed :=
    if piece.kind == .ident then reading.sided.map (·, String.ofList piece.text) else none
  named :=
    if piece.kind == .ident then
      reading.typed.map fun typed => ⟨typed.1, typed.2, String.ofList piece.text⟩
    else none

/-- The variable whose declaration ends with a lexeme. -/
def declared? (reading : Reading) (piece : Lexeme) : Option InterfaceVariable :=
  if piece == ⟨.punct, [';']⟩ then reading.named else none

def after (side : ChannelSide) (reading : Reading) (pieces : List Lexeme) : Reading :=
  pieces.foldl (step side) reading

/-- The variables that some code declares. -/
def declares (side : ChannelSide) (reading : Reading) : List Lexeme → List InterfaceVariable
  | [] => []
  | piece :: rest => (reading.declared? piece).toList ++ (reading.step side piece).declares side rest

theorem declares_append (side : ChannelSide) (reading : Reading) (pieces others : List Lexeme) :
    reading.declares side (pieces ++ others) =
      reading.declares side pieces ++ (reading.after side pieces).declares side others := by
  induction pieces generalizing reading with
  | nil => rfl
  | cons piece rest ih =>
    rw [cons_append, declares, ih, declares, append_assoc]
    rfl

/-- Behind anything but a word, nothing of a declaration has been read. -/
theorem step_of_not_ident (side : ChannelSide) (reading : Reading) (notIdent : piece.kind ≠ .ident) :
    reading.step side piece = idle := by
  have ne : ∀ word : String, (piece == (⟨.ident, word.toList⟩ : Lexeme)) = false := by
    intro word
    apply beq_eq_false_iff_ne.mpr
    rintro rfl
    exact notIdent rfl
  simp only [step, idle, ne, beq_eq_false_iff_ne.mpr notIdent, Bool.false_eq_true, if_false]

end Reading

def interface (side : ChannelSide) (source : String) : List InterfaceVariable :=
  Reading.idle.declares side ((code (lex source)).map fun placed => lexeme placed.token)

/-- The same of lexemes that start a line. -/
def declaredIn (side : ChannelSide) (pieces : List Lexeme) : List InterfaceVariable :=
  Reading.idle.declares side (codePieces false pieces)

theorem interface_eq (side : ChannelSide) (source : String) :
    interface side source = declaredIn side (lexemes source.toList) := by
  rw [interface, code, codeFrom_lexemes]
  rfl

example : interface .output "flat out int k;//out int a;\nout vec4 b;in float c;" =
    [⟨true, "int", "k"⟩, ⟨false, "vec4", "b"⟩] := by
  decide +kernel

/-! Places outside of declarations. -/

/-- Whether lexemes end outside of declarations and of directive lines. -/
def isWhole (side : ChannelSide) (pieces : List Lexeme) : Bool :=
  !pieces.foldl directiveAfter false &&
    Reading.idle.after side (codePieces false pieces) == Reading.idle

section Whole

variable {side : ChannelSide} {pieces : List Lexeme} (whole : isWhole side pieces = true)

include whole

theorem declaredIn_append (others : List Lexeme) :
    declaredIn side (pieces ++ others) = declaredIn side pieces ++ declaredIn side others := by
  simp only [isWhole, Bool.and_eq_true, Bool.not_eq_true', beq_iff_eq] at whole
  rw [declaredIn, codePieces_append, whole.1, Reading.declares_append, whole.2]
  rfl

theorem isWhole_append (others : List Lexeme) :
    isWhole side (pieces ++ others) = isWhole side others := by
  simp_all [isWhole, codePieces_append, Reading.after]

end Whole

/-- No variable of a name is declared. -/
def Lacks (side : ChannelSide) (name : String) (pieces : List Lexeme) : Prop :=
  ∀ declared ∈ declaredIn side pieces, declared.name ≠ name

theorem lacks_append (whole : isWhole side pieces) :
    Lacks side name (pieces ++ others) ↔ Lacks side name pieces ∧ Lacks side name others := by
  rw [Lacks, declaredIn_append whole]
  exact forall_mem_append

/-- Only names that stand in the code are declared. -/
theorem Reading.name_ne_of_declares (absent : ∀ piece ∈ pieces, piece ≠ ⟨.ident, name.toList⟩)
    (fresh : ∀ found ∈ reading.named, found.name ≠ name) :
    ∀ found ∈ reading.declares side pieces, found.name ≠ name := by
  induction pieces generalizing reading with
  | nil => exact fun _ absurdity => absurd absurdity not_mem_nil
  | cons piece rest ih =>
    obtain ⟨here, later⟩ := forall_mem_cons.mp absent
    intro found mem
    rcases mem_append.mp mem with declared | further
    · grind [Reading.declared?]
    · refine ih later ?_ found further
      intro named isNamed
      simp only [Reading.step] at isNamed
      split at isNamed
      next ident =>
        obtain ⟨typed, -, rfl⟩ := Option.map_eq_some_iff.mp isNamed
        intro same
        apply here
        rw [← same, String.toList_ofList, ← beq_iff_eq.mp ident]
      · cases isNamed

theorem lacks_of_absent (absent : ∀ piece ∈ pieces, piece ≠ ⟨.ident, name.toList⟩) :
    Lacks side name pieces :=
  Reading.name_ne_of_declares (fun piece mem => absent piece (mem_codePieces mem))
    fun _ absurdity => by cases absurdity

/-! Readings that find no more. -/

/-- One reading has come no further than another one, up to a change of names. -/
structure Below (renames : String → String → Prop) (reading other : Reading) : Prop where
  sided : other.sided.isSome = true → reading.sided.isSome = true
  typed : other.typed.isSome = true → reading.typed.isSome = true
  named : ∀ found, other.named = some found →
    ∃ origin, reading.named = some origin ∧ renames origin.name found.name

section Below

variable {renames : String → String → Prop} {side : ChannelSide}

theorem below_idle (reading : Reading) : Below renames reading .idle :=
  ⟨fun absurdity => absurd absurdity (by decide), fun absurdity => absurd absurdity (by decide),
    fun _ absurdity => absurd absurdity (by simp [Reading.idle])⟩

theorem Below.step (keeps : ∀ name, renames name name) (below : Below renames reading other)
    (piece : Lexeme) :
    Below renames (reading.step side piece) (other.step side piece) where
  sided := by
    simp only [Reading.step]
    split <;> exact id
  typed := by
    simp only [Reading.step]
    split
    · simp only [Option.isSome_map]
      exact below.sided
    · exact id
  named := by
    intro found isFound
    simp only [Reading.step] at isFound ⊢
    split at isFound
    next ident =>
      obtain ⟨typed, isTyped, rfl⟩ := Option.map_eq_some_iff.mp isFound
      obtain ⟨origin, isOrigin⟩ := Option.isSome_iff_exists.mp (below.typed (by rw [isTyped]; rfl))
      grind
    · cases isFound

theorem Below.declared? (below : Below renames reading other) (piece : Lexeme) :
    ∀ found ∈ other.declared? piece,
      ∃ origin ∈ reading.declared? piece, renames origin.name found.name := by
  intro found here
  unfold Reading.declared? at here ⊢
  split at here
  next stop =>
    rw [if_pos stop]
    exact below.named found here
  · cases here

/-- A lexeme in front of code that finds no more. -/
theorem Below.cons (below : Below renames reading other) {rest : List Lexeme}
    (later : ∀ found ∈ (other.step side piece).declares side others,
      ∃ origin ∈ (reading.step side piece).declares side rest, renames origin.name found.name) :
    ∀ found ∈ other.declares side (piece :: others),
      ∃ origin ∈ reading.declares side (piece :: rest), renames origin.name found.name := by
  intro found mem
  rcases mem_append.mp mem with here | further
  · obtain ⟨origin, isOrigin, same⟩ := below.declared? piece found (Option.mem_toList.mp here)
    exact ⟨origin, mem_append_left _ (Option.mem_toList.mpr isOrigin), same⟩
  · obtain ⟨origin, listed, same⟩ := later found further
    exact ⟨origin, mem_append_right _ listed, same⟩

theorem Below.declares (keeps : ∀ name, renames name name) (below : Below renames reading other)
    (pieces : List Lexeme) :
    ∀ found ∈ other.declares side pieces,
      ∃ origin ∈ reading.declares side pieces, renames origin.name found.name := by
  induction pieces generalizing reading other with
  | nil => exact fun _ absurdity => absurd absurdity not_mem_nil
  | cons piece rest ih =>
    exact below.cons (ih (below.step keeps piece))

end Below

/-- Code that is cut out between declarations leaves no declaration that was not there. -/
theorem Lacks.cut {before cut after filling : List Lexeme}
    (lacks : Lacks side name (before ++ (cut ++ after))) (wholeBefore : isWhole side before)
    (closed : cut.foldl directiveAfter false = false) (wholeFilling : isWhole side filling)
    (lacksFilling : Lacks side name filling) : Lacks side name (before ++ (filling ++ after)) := by
  obtain ⟨lacksBefore, lacksRest⟩ := (lacks_append wholeBefore).mp lacks
  refine (lacks_append wholeBefore).mpr ⟨lacksBefore, ?_⟩
  refine (lacks_append wholeFilling).mpr ⟨lacksFilling, ?_⟩
  intro found mem
  obtain ⟨origin, listed, same⟩ := Below.declares (fun _ => rfl)
    (@below_idle Eq (Reading.idle.after side (codePieces false cut))) _ found mem
  rw [← same]
  apply lacksRest
  rw [declaredIn, codePieces_append, closed, Reading.declares_append]
  exact mem_append_right _ listed

/-! Comments. -/

theorem codePieces_bleached (onLine : Bool) (pieces : List Lexeme) :
    codePieces onLine (pieces.map bleached) = codePieces onLine pieces := by
  induction pieces generalizing onLine with
  | nil => rfl
  | cons piece rest ih =>
    have line : directiveAfter onLine (bleached piece) = directiveAfter onLine piece := by
      rw [directiveAfter, bleached_kind, directiveAfter]
    rw [map_cons, codePieces, ih, codePieces, line, bleached_kind]
    split
    · rfl
    next outside =>
      have notComment : piece.kind ≠ .comment := by
        intro comment
        simp [comment, TokenKind.isTrivia] at outside
      rw [bleached_text notComment]

theorem declaredIn_bleached (side : ChannelSide) (pieces : List Lexeme) :
    declaredIn side (pieces.map bleached) = declaredIn side pieces := by
  rw [declaredIn, codePieces_bleached, declaredIn]

/-! Redirections. -/

/-- The names that a redirection may give to the variable of a declaration. -/
def Renames (name : String) (channel : Channel) (old new : String) : Prop :=
  new = old ∨ (old = name ∧ new = channel.name)

section Redirection

variable {side : ChannelSide} {name : String} {channel : Channel}

/-- A lexeme that is put in. -/
theorem declares_word (reading : Reading) (word : List Char) (rest : List Lexeme) :
    reading.declares side (⟨.ident, word⟩ :: rest) =
      (reading.step side ⟨.ident, word⟩).declares side rest :=
  rfl

/-- A name that is replaced gives its declaration another name. -/
theorem Below.renamed (channelOther : channel.name ≠ side.word)
    (below : Below (Renames name channel) reading other) :
    Below (Renames name channel) (reading.step side ⟨.ident, name.toList⟩)
      (other.step side ⟨.ident, channel.name.toList⟩) where
  sided := by
    have ne : ((⟨.ident, channel.name.toList⟩ : Lexeme) == ⟨.ident, side.word.toList⟩) =
        false := by
      apply beq_eq_false_iff_ne.mpr
      intro same
      exact channelOther (String.toList_inj.mp (congrArg Lexeme.text same))
    grind [Reading.step]
  typed := by grind [sided, Reading.step]
  named := by
    intro found isFound
    obtain ⟨typed, isTyped, rfl⟩ := Option.map_eq_some_iff.mp isFound
    obtain ⟨origin, isOrigin⟩ := Option.isSome_iff_exists.mp (below.typed (by rw [isTyped]; rfl))
    refine ⟨⟨origin.1, origin.2, name⟩, ?_, .inr ⟨rfl, String.ofList_toList⟩⟩
    rw [Reading.step, isOrigin]
    simp

/-- A redirection makes no declaration, but may change the name in one. -/
theorem Redirected.declared (channelOther : channel.name ≠ side.word)
    (redirected : Redirected name channel equals pieces others) :
    ∀ {onLine : Bool} {reading other : Reading}, Below (Renames name channel) reading other →
      ∀ found ∈ other.declares side (codePieces onLine others),
        ∃ origin ∈ reading.declares side (codePieces onLine pieces),
          Renames name channel origin.name found.name := by
  induction redirected with
  | nil =>
    intro onLine reading other _ found absurdity
    exact absurd absurdity not_mem_nil
  | kept piece later ih =>
    intro onLine reading other below
    rw [codePieces, codePieces]
    split
    · exact ih below
    · exact below.cons (ih (below.step (fun _ => .inl rfl) piece))
  | named later ih =>
    intro onLine reading other below
    cases onLine with
    | true => exact ih below
    | false => exact ih (below.renamed channelOther)
  | read later ih =>
    intro onLine reading other below
    cases onLine with
    | true => exact ih below
    | false =>
      exact ih (below_idle _)
  | opened later ih =>
    intro onLine reading other below
    cases onLine with
    | true => exact ih below
    | false =>
      exact ih (below_idle _)
  | closed closes later ih =>
    intro onLine reading other below
    cases onLine with
    | true => exact ih below
    | false =>
      exact ih (below_idle _)

theorem Lacks.redirected (channelOther : channel.name ≠ side.word)
    (redirected : Redirected name channel equals pieces others) {wanted : String}
    (lacks : ∀ old, Renames name channel old wanted → Lacks side old pieces) :
    Lacks side wanted others := by
  intro found mem same
  obtain ⟨origin, listed, renames⟩ := redirected.declared channelOther (below_idle .idle) found mem
  rw [same] at renames
  exact lacks origin.name renames origin listed rfl

end Redirection

end WebShader.Sharing
