import WebShader.Coercion.Literal
import WebShader.Proofs.Token.Nesting

/-!
Contract: places in code that hold integers only.

Owns: the round and square brackets around a place, those that keep the literals
in them at every depth, and that the walk over literals has them on its stack.

The walk reads the name in front of a parenthesis backwards, and a closing
bracket of either kind ends the innermost bracket. In code whose brackets nest
both are right, for a type with one size behind it too. The name in front of two
sizes is not found.
-/

namespace WebShader.Coercion

open List Token

variable {typing : Typing} {code before : List Token} {count : Nat}

/-! Brackets around a place. -/

/-- Round and square brackets, and those that close them. -/
def valueBrackets : List (Lexeme × Lexeme) :=
  [(punct '(', punct ')'), (punct '[', punct ']')]

def isValueBracket (piece : Lexeme) : Bool :=
  piece.kind == .punct && ["(", ")", "[", "]"].contains (String.ofList piece.text)

/-- Code whose round and square brackets nest, but for a number of opening ones that nothing
closes. -/
inductive Nests : Nat → List Lexeme → Prop where
  | nil : Nests 0 []
  | plain {count : Nat} {piece : Lexeme} {rest : List Lexeme}
      (noBracket : isValueBracket piece = false) (others : Nests count rest) :
      Nests count (piece :: rest)
  | group {count : Nat} {opener closer : Lexeme} {inside rest : List Lexeme}
      (pair : (opener, closer) ∈ valueBrackets) (inner : Nests 0 inside)
      (others : Nests count rest) : Nests count (opener :: (inside ++ closer :: rest))
  | opened {count : Nat} {opener : Lexeme} {rest : List Lexeme}
      (opens : opener ∈ valueBrackets.map Prod.fst) (others : Nests count rest) :
      Nests (count + 1) (opener :: rest)

/-- Names whose parentheses hold integers only. -/
def integerOwners : List String :=
  "layout" :: integerTypes

/-- Code that ends in such a name, or in one with the size of an array. -/
def Constructs (code : List Lexeme) : Prop :=
  ∃ front name size, name ∈ integerOwners ∧ code = front ++ word name :: size ∧
    (size = [] ∨ ∃ inside, Nests 0 inside ∧ size = punct '[' :: (inside ++ [punct ']']))

/-- Whether a place behind code is, at any depth, in a subscript or in parentheses that hold
integers only. -/
def HoldsIntegers (code : List Lexeme) : Prop :=
  ∃ outer opener inner count, code = outer ++ opener :: inner ∧ Nests count inner ∧
    (opener = punct '[' ∨ (opener = punct '(' ∧ Constructs outer))

/-! The walk over literals. -/

/-- Which of the brackets that are open behind code, given backwards, keep all literals. -/
def guards (typing : Typing) : List Token → List Bool
  | [] => []
  | token :: before =>
    if token.isPunct "(" then (parenthesisFrame typing before).protectsAll :: guards typing before
    else if token.isPunct "[" then true :: guards typing before
    else if token.isPunct ")" || token.isPunct "]" then (guards typing before).tail
    else guards typing before

theorem map_protectsAll_nextArgument (place : Place) :
    place.nextArgument.frames.map Frame.protectsAll = place.frames.map Frame.protectsAll := by
  obtain ⟨frames, _, _, _, _, _⟩ := place
  cases frames with
  | nil => rfl
  | cons frame others => cases frame <;> rfl

theorem guards_advance {place : Place}
    (stack : place.frames.map Frame.protectsAll = guards typing before) (token : Token)
    (after : List Token) :
    (place.advance typing before token after).frames.map Frame.protectsAll =
      guards typing (token :: before) := by
  obtain ⟨kind, text, offset⟩ := token
  rw [Place.advance, guards]
  cases kind with
  | punct =>
    dsimp only
    unfold Place.afterPunct
    split
    · simp [isPunct, stack]
    · simp [isPunct, stack, Frame.protectsAll]
    · simp [isPunct, ← stack, Place.closeBracket]
    · simp [isPunct, ← stack, Place.closeBracket]
    · exact (map_protectsAll_nextArgument place).trans stack
    · exact stack
    · exact stack
    · exact stack
    · exact stack
    · simp_all [isPunct]
  | ident =>
    dsimp only
    unfold Place.afterIdent
    split
    · exact stack
    · split
      · exact stack
      · split <;> exact stack
  | _ => exact stack

theorem guards_opener {opener : Token} (opens : lexeme opener ∈ valueBrackets.map Prod.fst)
    (before : List Token) :
    ∃ guard, guards typing (opener :: before) = guard :: guards typing before := by
  have named : opener.isPunct "(" ∨ opener.isPunct "[" := by
    simpa [valueBrackets, isPunct_lexeme, punct] using opens
  rcases named with round | square
  · exact ⟨_, by rw [guards, if_pos round]⟩
  · by_cases round : opener.isPunct "(" = true
    · exact ⟨_, by rw [guards, if_pos round]⟩
    · exact ⟨true, by rw [guards, if_neg round, if_pos square]⟩

section Brackets

variable {opener closer : Token} (pair : (lexeme opener, lexeme closer) ∈ valueBrackets)

include pair

theorem texts_of_pair : opener.kind = .punct ∧ closer.kind = .punct ∧
    (opener.text = "(" ∧ closer.text = ")" ∨ opener.text = "[" ∧ closer.text = "]") := by
  have named : (opener.isPunct "(" ∧ closer.isPunct ")") ∨
      (opener.isPunct "[" ∧ closer.isPunct "]") := by
    simpa [valueBrackets, isPunct_lexeme, punct] using pair
  simp only [isPunct] at named
  grind

theorem guards_closer (before : List Token) :
    guards typing (closer :: before) = (guards typing before).tail := by
  obtain ⟨-, kind, ⟨-, text⟩ | ⟨-, text⟩⟩ := texts_of_pair pair <;>
    simp [guards, isPunct, kind, text]

theorem ownerOfSubscript?_pair (depth : Nat) (before inside : List Token) :
    ∃ between, ownerOfSubscript? (depth + 1) (closer :: inside) =
        ownerOfSubscript? (between + 1) inside ∧
      ownerOfSubscript? (between + 1) (opener :: before) = ownerOfSubscript? (depth + 1) before := by
  obtain ⟨opens, closes, ⟨first, last⟩ | ⟨first, last⟩⟩ := texts_of_pair pair
  · exact ⟨depth, by simp [ownerOfSubscript?, isPunct, first, last]⟩
  · exact ⟨depth + 1, by simp [ownerOfSubscript?, isPunct, opens, closes, first, last]⟩

end Brackets

section Plain

variable {token : Token} (noBracket : isValueBracket (lexeme token) = false)

include noBracket

theorem isPunct_plain {text : String} (listed : text ∈ ["(", ")", "[", "]"]) :
    token.isPunct text = false := by
  simp only [isValueBracket, lexeme] at noBracket
  apply Bool.eq_false_iff.mpr
  intro isText
  simp_all [isPunct]

theorem guards_plain (before : List Token) :
    guards typing (token :: before) = guards typing before := by simp_all [isPunct_plain, guards]

theorem ownerOfSubscript?_plain (depth : Nat) (before : List Token) :
    ownerOfSubscript? depth (token :: before) = ownerOfSubscript? depth before := by
  simp_all [isPunct_plain, ownerOfSubscript?]

end Plain

/-- Behind nested code the same brackets are open as before it, and those that it does not close. -/
theorem Nests.guards (nests : Nests count (code.map lexeme)) (before : List Token) :
    ∃ front, front.length = count ∧
      guards typing (code.reverse ++ before) = front ++ guards typing before := by
  generalize shape : code.map lexeme = pieces at nests
  induction nests generalizing code before with
  | nil => simp_all
  | plain noBracket _ ih =>
    obtain ⟨token, rest, rfl, rfl, others⟩ := exists_lexeme_cons shape
    obtain ⟨front, length, same⟩ := ih (token :: before) others
    refine ⟨front, length, ?_⟩
    rw [reverse_cons, append_assoc, singleton_append, same, guards_plain noBracket]
  | group pair _ _ inner ih =>
    obtain ⟨opener, _, rfl, rfl, others⟩ := exists_lexeme_cons shape
    obtain ⟨inside, _, rfl, isInside, others⟩ := exists_lexeme_append others
    obtain ⟨closer, rest, rfl, rfl, isRest⟩ := exists_lexeme_cons others
    obtain ⟨guard, opens⟩ := @guards_opener typing _ (mem_map_of_mem pair) before
    obtain ⟨closed, none, within⟩ := inner (opener :: before) isInside
    obtain ⟨front, length, same⟩ := ih (closer :: (inside.reverse ++ opener :: before)) isRest
    grind [guards_closer]
  | opened isOpener _ ih =>
    obtain ⟨opener, rest, rfl, rfl, others⟩ := exists_lexeme_cons shape
    obtain ⟨front, length, same⟩ := ih (opener :: before) others
    obtain ⟨guard, opens⟩ := @guards_opener typing _ isOpener before
    refine ⟨front ++ [guard], by rw [length_append, length]; rfl, ?_⟩
    rw [opens] at same
    simpa using same

/-- The look backwards for the name in front of a subscript passes nested code. -/
theorem Nests.ownerOfSubscript? (nests : Nests 0 (code.map lexeme)) (depth : Nat)
    (before : List Token) :
    ownerOfSubscript? (depth + 1) (code.reverse ++ before) =
      ownerOfSubscript? (depth + 1) before := by
  generalize shape : code.map lexeme = pieces at nests
  generalize all : 0 = count at nests
  induction nests generalizing code depth before with
  | nil =>
    obtain rfl := map_eq_nil_iff.mp shape
    rfl
  | plain noBracket _ ih =>
    obtain ⟨token, rest, rfl, rfl, others⟩ := exists_lexeme_cons shape
    rw [reverse_cons, append_assoc, singleton_append, ih _ _ others all,
      ownerOfSubscript?_plain noBracket]
  | group pair _ _ inner ih =>
    obtain ⟨opener, _, rfl, rfl, others⟩ := exists_lexeme_cons shape
    obtain ⟨inside, _, rfl, isInside, others⟩ := exists_lexeme_append others
    obtain ⟨closer, rest, rfl, rfl, isRest⟩ := exists_lexeme_cons others
    obtain ⟨between, closes, opens⟩ :=
      ownerOfSubscript?_pair pair depth before (inside.reverse ++ opener :: before)
    grind
  | opened => cases all

theorem callee?_of_constructs (constructs : Constructs (code.map lexeme)) :
    ∃ name ∈ integerOwners, callee? code.reverse = some name := by
  obtain ⟨front, name, size, listed, shape, sizes⟩ := constructs
  obtain ⟨first, _, rfl, -, others⟩ := exists_lexeme_append shape
  obtain ⟨owner, last, rfl, isOwner, isSize⟩ := exists_lexeme_cons others
  have ident : owner.isIdent := by
    rw [isIdent, show owner.kind = .ident from congrArg Lexeme.kind isOwner]
    rfl
  have text : owner.text = name := String.toList_injective (congrArg Lexeme.text isOwner)
  refine ⟨name, listed, ?_⟩
  rcases sizes with rfl | ⟨inside, nests, rfl⟩
  · obtain rfl := map_eq_nil_iff.mp isSize
    simp [callee?, ident, text]
  · obtain ⟨opening, _, rfl, isOpening, others⟩ := exists_lexeme_cons isSize
    obtain ⟨within, _, rfl, rfl, last⟩ := exists_lexeme_append others
    obtain ⟨closing, _, rfl, isClosing, none⟩ := exists_lexeme_cons last
    obtain rfl := map_eq_nil_iff.mp none
    have opens : opening.isPunct "[" ∧ opening.isPunct "]" = false := by
      rw [isPunct_lexeme, isPunct_lexeme, isOpening]
      decide
    have closes : closing.isPunct "]" ∧ closing.isIdent = false := by
      rw [isPunct_lexeme, isIdent,
        show closing.kind = .punct from congrArg Lexeme.kind isClosing, isClosing]
      decide
    have passes := nests.ownerOfSubscript? 0 (opening :: owner :: first.reverse)
    simp [callee?, closes, ownerOfSubscript?, passes, opens, Option.filter, ident, text]

theorem mem_guards (holds : HoldsIntegers (code.map lexeme)) :
    true ∈ guards typing code.reverse := by
  obtain ⟨outer, opener, inner, count, shape, nests, kinds⟩ := holds
  obtain ⟨outside, _, rfl, rfl, others⟩ := exists_lexeme_append shape
  obtain ⟨opening, inside, rfl, rfl, rfl⟩ := exists_lexeme_cons others
  obtain ⟨front, -, same⟩ := @Nests.guards typing _ _ nests (opening :: outside.reverse)
  have keeps : guards typing (opening :: outside.reverse) = true :: guards typing outside.reverse := by
    rw [guards, isPunct_lexeme, isPunct_lexeme]
    rcases kinds with square | ⟨round, constructs⟩
    · rw [square]
      rfl
    · obtain ⟨name, listed, called⟩ := callee?_of_constructs constructs
      have keepsAll : (parenthesisFrame typing outside.reverse).protectsAll := by
        rw [parenthesisFrame, called]
        rcases mem_cons.mp listed with rfl | isType
        · rfl
        · exact congrArg Frame.protectsAll (if_pos (contains_iff_mem.mpr isType))
      rw [round, keepsAll]
      rfl
  grind

theorem protectsLiteral_of_guards {place : Place}
    (stack : place.frames.map Frame.protectsAll = guards typing before)
    (keeps : true ∈ guards typing before) : place.protectsLiteral := by
  grind [Place.protectsLiteral]

end WebShader.Coercion
