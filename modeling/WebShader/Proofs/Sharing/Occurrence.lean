import WebShader.Proofs.Run
import WebShader.Proofs.Sharing.Accessors

/-!
Contract: when the names that a source writes cannot be told.

Owns: the occurrences of names at which the report fails.

Does not own: the accessors behind a name; those are `Accessors`.

An occurrence is judged by the lexeme in front of it and by the lexemes behind
it. The report fails if it does at one of them.
-/

namespace WebShader.Usage

open List Token
open Sharing (isPoint isPoint_lexeme)

variable {others : List Spot} {prev : Option Token} {name parameterPrefix : String}

/-! Occurrences. -/

def isOperatorIn (operators : List String) (piece : Lexeme) : Bool :=
  piece.kind == .punct && operators.any (·.toList == piece.text)

def isDeclaring (piece : Lexeme) : Bool :=
  piece.kind == .ident && !statementWords.any (·.toList == piece.text)

theorem contains_toList (words : List String) (word : String) :
    words.any (·.toList == word.toList) = words.contains word := by
  rw [Bool.eq_iff_iff, any_eq_true, contains_iff_mem]
  constructor
  · rintro ⟨other, listed, same⟩
    rwa [← String.toList_inj.mp (beq_iff_eq.mp same)]
  grind

theorem isPunctIn_lexeme (token : Token) (operators : List String) :
    token.isPunctIn operators = isOperatorIn operators (lexeme token) := by
  rw [isOperatorIn, lexeme, contains_toList]
  rfl

theorem declares_lexeme (prev : Option Token) :
    declares prev = (prev.map lexeme).any isDeclaring := by
  cases prev with
  | none => rfl
  | some token =>
    show (token.isIdent && !statementWords.contains token.text) = isDeclaring (lexeme token)
    rw [isDeclaring, lexeme, contains_toList]
    rfl

theorem selectsMember_lexeme (prev : Option Token) :
    selectsMember prev = (prev.map lexeme).any isPoint := by
  cases prev with
  | none => rfl
  | some token => exact (isPoint_lexeme token).symm

theorem any_isPunctIn (prev : Option Token) (operators : List String) :
    prev.any (·.isPunctIn operators) = (prev.map lexeme).any (isOperatorIn operators) := by
  grind [isPunctIn_lexeme]

/-- A name cannot be judged, as a subscript behind it does not close in code. -/
def Faults (previous : Option Lexeme) (rest : List Spot) : Prop :=
  previous.any isPoint = false ∧ previous.any (isOperatorIn stepOperators) = false ∧
    previous.any isDeclaring = false ∧ Breaks rest

section Judgement

variable {tokens : List Token} {index : Nat} {onLine : Bool}

theorem Breaks.faults (breaks : Breaks (spotsAt tokens index onLine)) :
    skipAccessors tokens (codeAt tokens index onLine) = .error .subscriptCloserInDirective := by
  obtain ⟨inside, rest, skips, nested⟩ := breaks
  obtain ⟨later, line, last, same⟩ := skips.skipAccessors rfl
  grind [skipAccessors_brackets]

theorem isWritten_faults {fault : Fault}
    (judges : isWritten tokens parameterPrefix prev name (codeAt tokens index onLine) =
      .error fault) : Faults (prev.map lexeme) (spotsAt tokens index onLine) := by
  rw [isWritten, selectsMember_lexeme, any_isPunctIn, declares_lexeme] at judges
  split at judges
  · cases judges
  next notPoint =>
    split at judges
    · cases judges
    next notSteps =>
      split at judges
      · cases judges
      next notDeclaring =>
        refine ⟨Bool.eq_false_iff.mpr notPoint, Bool.eq_false_iff.mpr notSteps,
          Bool.eq_false_iff.mpr notDeclaring, ?_⟩
        cases skipped tokens index onLine with
        | ends later line skips found =>
          rw [found] at judges
          cases judges
        | breaks breaks _ => exact breaks

theorem Faults.isWritten (faults : Faults (prev.map lexeme) (spotsAt tokens index onLine)) :
    Usage.isWritten tokens parameterPrefix prev name (codeAt tokens index onLine) =
      .error .subscriptCloserInDirective := by
  obtain ⟨notPoint, notSteps, notDeclaring, breaks⟩ := faults
  rw [Usage.isWritten, selectsMember_lexeme, any_isPunctIn, declares_lexeme, notPoint, notSteps,
    notDeclaring, breaks.faults]
  rfl

end Judgement

/-! All occurrences of a name. -/

/-- The last lexeme of code, with what stands in front of the spots. -/
def lastCode (previous : Option Lexeme) (passed : List Spot) : Option Lexeme :=
  passed.foldl (fun last spot => if spot.inCode then some spot.piece else last) previous

/-- A name stands in the code, between a lexeme and spots of which something holds. -/
def Somewhere (name : List Char) (holds : Option Lexeme → List Spot → Prop)
    (previous : Option Lexeme) (passed : List Spot) : Prop :=
  ∃ front rest, passed = front ++ ⟨⟨.ident, name⟩, true⟩ :: rest ∧
    holds (lastCode previous front) rest

section Somewhere

variable {name : List Char} {holds : Option Lexeme → List Spot → Prop} {prev : Option Lexeme}

theorem not_somewhere_nil : ¬Somewhere name holds prev [] := by
  rintro ⟨front, rest, shape, -⟩
  cases front <;> cases shape

theorem somewhere_cons {spot : Spot} :
    Somewhere name holds prev (spot :: others) ↔
      (spot = ⟨⟨.ident, name⟩, true⟩ ∧ holds prev others) ∨
        Somewhere name holds (lastCode prev [spot]) others := by
  constructor
  · rintro ⟨front, rest, shape, here⟩
    cases front with
    | nil =>
      obtain ⟨rfl, rfl⟩ := List.cons.inj shape
      exact .inl ⟨rfl, here⟩
    | cons first further =>
      obtain ⟨rfl, rfl⟩ := List.cons.inj shape
      exact .inr ⟨further, rest, rfl, here⟩
  · rintro (⟨rfl, here⟩ | ⟨front, rest, rfl, here⟩)
    · exact ⟨[], others, rfl, here⟩
    · exact ⟨spot :: front, rest, rfl, here⟩

theorem somewhere_outside {piece : Lexeme} :
    Somewhere name holds prev (⟨piece, false⟩ :: others) ↔
      Somewhere name holds prev others := by
  rw [somewhere_cons]
  refine ⟨?_, .inr⟩
  rintro (⟨same, -⟩ | later)
  · cases same
  · exact later

end Somewhere

section Report

variable {tokens : List Token} {wanted : List String} {parameterPrefix : String}

theorem isWordIn_lexeme (token : Token) (words : List String) :
    token.isWordIn words ↔ ∃ word ∈ words, lexeme token = ⟨.ident, word.toList⟩ := by
  rw [isWordIn, Bool.and_eq_true, beq_iff_eq, contains_iff_mem]
  constructor
  · rintro ⟨ident, listed⟩
    exact ⟨token.text, listed, by rw [lexeme, ident]⟩
  · rintro ⟨word, listed, same⟩
    rw [lexeme, Lexeme.mk.injEq, String.toList_inj] at same
    exact ⟨same.1, same.2 ▸ listed⟩

theorem writtenFrom_cons_faults {entry : Placed} {rest : List Placed} :
    (∃ fault, writtenFrom tokens wanted parameterPrefix prev (entry :: rest) = .error fault) ↔
      (entry.token.isWordIn wanted ∧ ∃ fault,
        isWritten tokens parameterPrefix prev entry.token.text rest = .error fault) ∨
      ∃ fault, writtenFrom tokens wanted parameterPrefix (some entry.token) rest = .error fault := by
  rw [writtenFrom]
  cases entry.token.isWordIn wanted with
  | false =>
    cases writtenFrom tokens wanted parameterPrefix (some entry.token) rest with
    | error fault => exact ⟨fun _ => .inr ⟨fault, rfl⟩, fun _ => ⟨fault, rfl⟩⟩
    | ok others =>
      refine ⟨?_, ?_⟩
      · rintro ⟨fault, absurdity⟩
        cases absurdity
      simp
  | true =>
    cases isWritten tokens parameterPrefix prev entry.token.text rest with
    | error fault => exact ⟨fun _ => .inl ⟨rfl, fault, rfl⟩, fun _ => ⟨fault, rfl⟩⟩
    | ok answer =>
      cases writtenFrom tokens wanted parameterPrefix (some entry.token) rest with
      | error fault => exact ⟨fun _ => .inr ⟨fault, rfl⟩, fun _ => ⟨fault, rfl⟩⟩
      | ok others =>
        refine ⟨?_, ?_⟩
        · rintro ⟨fault, absurdity⟩
          cases absurdity
        simp

/-- A report fails if a name cannot be judged, and only then. -/
theorem writtenFrom_faults {prev : Option Token} {index : Nat} {onLine : Bool} :
    (∃ fault, writtenFrom tokens wanted parameterPrefix prev (codeAt tokens index onLine) =
      .error fault) ↔ ∃ name ∈ wanted, Somewhere name.toList Faults (prev.map lexeme)
        (spotsAt tokens index onLine) := by
  induction shape : spotsAt tokens index onLine generalizing index onLine prev with
  | nil =>
    rw [codeAt_nil shape]
    refine ⟨?_, ?_⟩
    · rintro ⟨fault, faults⟩
      cases faults
    simp [not_somewhere_nil]
  | cons spot rest ih =>
    obtain ⟨pos, token, -, isPiece, behind, code⟩ := exists_next shape
    obtain ⟨piece, inCode⟩ := spot
    cases inCode with
    | false => simp_all [somewhere_outside]
    | true =>
      simp only [if_true, singleton_append] at isPiece behind code
      have passed : lastCode (prev.map lexeme) [⟨piece, true⟩] = (some token).map lexeme := by
        show some piece = some (lexeme token)
        rw [isPiece]
      rw [code, writtenFrom_cons_faults, ih behind]
      simp only [somewhere_cons, passed]
      constructor
      · rintro (⟨isWanted, fault, judges⟩ | ⟨name, listed, later⟩)
        · grind [isWordIn_lexeme, isWritten_faults]
        · exact ⟨name, listed, .inr later⟩
      · rintro ⟨name, listed, ⟨same, faults⟩ | later⟩
        · rw [Spot.mk.injEq] at same
          rw [← behind] at faults
          exact .inl ⟨(isWordIn_lexeme token wanted).mpr ⟨name, listed, isPiece.trans same.1⟩, _,
            faults.isWritten⟩
        · exact .inr ⟨name, listed, later⟩

end Report

def spotsOf (source : String) : List Spot :=
  spots false (lexemes source.toList)

theorem written_faults {wanted : List String} {parameterPrefix source : String} :
    (∃ fault, written wanted parameterPrefix source = .error fault) ↔
      ∃ name ∈ wanted, Somewhere name.toList Faults none (spotsOf source) :=
  @writtenFrom_faults (lex source) wanted parameterPrefix none 0 false

end WebShader.Usage
