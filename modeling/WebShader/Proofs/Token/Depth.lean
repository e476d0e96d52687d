import WebShader.Proofs.Token.Lossless
import WebShader.Token.Query

/-!
Contract: brackets of one kind, counted.

Owns: the depth of one kind of bracket, the bracket that closes another as the
place where the depth returns, and balanced lexemes.
-/

namespace WebShader.Token

open List

def punct (c : Char) : Lexeme :=
  ⟨.punct, [c]⟩

def bracketPairs : List (Lexeme × Lexeme) :=
  [(punct '(', punct ')'), (punct '[', punct ']'), (punct '\x7b', punct '\x7d')]

theorem mem_bracketPairs {pair : Lexeme × Lexeme} :
    pair ∈ bracketPairs ↔ pair = (punct '(', punct ')') ∨ pair = (punct '[', punct ']') ∨
      pair = (punct '\x7b', punct '\x7d') := by
  simp only [bracketPairs, mem_cons, not_mem_nil, or_false]

theorem isPunct_lexeme (token : Token) (text : String) :
    token.isPunct text = (lexeme token == ⟨.punct, text.toList⟩) := by
  have same : (token.text == text) = (token.text.toList == text.toList) := by
    rw [Bool.eq_iff_iff, beq_iff_eq, beq_iff_eq, ← String.toList_inj]
  rw [isPunct, same, Bool.eq_iff_iff, Bool.and_eq_true, beq_iff_eq, beq_iff_eq, beq_iff_eq, lexeme,
    Lexeme.mk.injEq]

def bracketsOf (opener closer : String) : Lexeme × Lexeme :=
  (⟨.punct, opener.toList⟩, ⟨.punct, closer.toList⟩)

theorem bracketsOf_mem {opener closer : String} (pair : closingBracket? opener = some closer) :
    bracketsOf opener closer ∈ bracketPairs := by
  unfold closingBracket? at pair
  split at pair
  · obtain rfl := Option.some.inj pair
    decide
  · obtain rfl := Option.some.inj pair
    decide
  · obtain rfl := Option.some.inj pair
    decide
  · cases pair

theorem pair_unique : ∀ first ∈ bracketPairs, ∀ second ∈ bracketPairs,
    (first.1 = second.1 ↔ first.2 = second.2) ∧ first.1 ≠ second.2 := by
  decide

/-! Depth. -/

/-- How many brackets of one kind are open behind lexemes, as long as one is. -/
def depthAfter (pair : Lexeme × Lexeme) (depth : Nat) : List Lexeme → Option Nat
  | [] => some depth
  | piece :: rest =>
    if piece == pair.1 then depthAfter pair (depth + 1) rest
    else if piece == pair.2 then
      if depth ≤ 1 then none else depthAfter pair (depth - 1) rest
    else depthAfter pair depth rest

variable {pair : Lexeme × Lexeme} {depth last : Nat} {pieces : List Lexeme}

theorem depthAfter_append (others : List Lexeme) : depthAfter pair depth (pieces ++ others) =
    (depthAfter pair depth pieces).bind (depthAfter pair · others) := by
  induction pieces generalizing depth with
  | nil => rfl
  | cons piece rest ih => grind [depthAfter]

theorem depthAfter_pos (positive : 1 ≤ depth) (found : depthAfter pair depth pieces = some last) :
    1 ≤ last := by
  fun_induction depthAfter pair depth pieces <;> grind

theorem count_of_depthAfter (ne : pair.1 ≠ pair.2)
    (found : depthAfter pair depth pieces = some last) :
    pieces.count pair.2 + last = pieces.count pair.1 + depth := by
  fun_induction depthAfter pair depth pieces <;> grind

/-- As many closing brackets as opening ones, and never more of them on the way. -/
def Balanced (pair : Lexeme × Lexeme) (pieces : List Lexeme) : Prop :=
  pieces.count pair.2 = pieces.count pair.1 ∧
    ∀ front, front <+: pieces → front.count pair.2 ≤ front.count pair.1

theorem balanced_of_depthAfter (ne : pair.1 ≠ pair.2)
    (found : depthAfter pair 1 pieces = some 1) : Balanced pair pieces := by
  refine ⟨Nat.add_right_cancel (count_of_depthAfter ne found), ?_⟩
  rintro front ⟨back, rfl⟩
  rw [depthAfter_append] at found
  obtain ⟨middle, within, -⟩ := Option.bind_eq_some_iff.mp found
  have positive := depthAfter_pos (Nat.le_refl 1) within
  have counted := count_of_depthAfter ne within
  omega

/-! Closing brackets. -/

section Closing

variable {opener closer : String} {closing : Token}

/-- A closing bracket is found behind what leaves one bracket open. -/
theorem closingDistance?_of_depthAfter (pair : closingBracket? opener = some closer)
    {inside : List Token} (positive : 1 ≤ depth)
    (nested : depthAfter (bracketsOf opener closer) depth (inside.map lexeme) = some 1)
    (closes : closing.isPunct closer) (rest : List Token) :
    closingDistance? opener closer depth (inside ++ closing :: rest) = some inside.length := by
  have opens : closing.isPunct opener = false := by
    obtain ⟨-, apart⟩ := pair_unique _ (bracketsOf_mem pair) _ (bracketsOf_mem pair)
    rw [isPunct_lexeme, beq_iff_eq] at closes
    rw [isPunct_lexeme, closes, beq_eq_false_iff_ne]
    exact apart.symm
  induction inside generalizing depth with
  | nil =>
    obtain rfl := Option.some.inj nested
    simp [closingDistance?, opens, closes]
  | cons token others ih =>
    rw [map_cons, depthAfter, bracketsOf, ← isPunct_lexeme, ← isPunct_lexeme] at nested
    rw [cons_append, closingDistance?, length_cons]
    split at nested
    next opening => rw [if_pos opening, ih (by omega) nested, Option.map_some]
    next notOpening =>
      rw [if_neg notOpening]
      split at nested
      next closing =>
        split at nested
        · cases nested
        next deep => rw [if_pos closing, if_neg deep, ih (by omega) nested, Option.map_some]
      next notClosing => rw [if_neg notClosing, ih positive nested, Option.map_some]

theorem exists_of_closingDistance? {dist : Nat} {tokens : List Token} (positive : 1 ≤ depth)
    (found : closingDistance? opener closer depth tokens = some dist) :
    ∃ inside closing rest, tokens = inside ++ closing :: rest ∧ inside.length = dist ∧
      depthAfter (bracketsOf opener closer) depth (inside.map lexeme) = some 1 ∧
      closing.isPunct closer := by
  induction tokens generalizing depth dist with
  | nil => cases found
  | cons token others ih =>
    -- a token that does not close the search is inside, with the depth that it leaves
    have step {next : Nat} (deep : 1 ≤ next)
        (within : (closingDistance? opener closer next others).map (· + 1) = some dist)
        (counts : ∀ pieces, depthAfter (bracketsOf opener closer) depth (lexeme token :: pieces) =
          depthAfter (bracketsOf opener closer) next pieces) :
        ∃ inside closing rest, token :: others = inside ++ closing :: rest ∧ inside.length = dist ∧
          depthAfter (bracketsOf opener closer) depth (inside.map lexeme) = some 1 ∧
          closing.isPunct closer := by
      obtain ⟨later, measured, rfl⟩ := Option.map_eq_some_iff.mp within
      obtain ⟨inside, closing, rest, rfl, rfl, nested, closes⟩ := ih deep measured
      exact ⟨token :: inside, closing, rest, rfl, rfl, (counts _).trans nested, closes⟩
    have opening (pieces : List Lexeme) :
        depthAfter (bracketsOf opener closer) depth (lexeme token :: pieces) =
          if token.isPunct opener then depthAfter (bracketsOf opener closer) (depth + 1) pieces
          else if token.isPunct closer then
            if depth ≤ 1 then none else depthAfter (bracketsOf opener closer) (depth - 1) pieces
          else depthAfter (bracketsOf opener closer) depth pieces := by
      rw [isPunct_lexeme, isPunct_lexeme]
      rfl
    rw [closingDistance?] at found
    split at found
    next opens => grind
    next notOpens =>
      split at found
      next closes =>
        split at found
        next shallow =>
          obtain rfl := Option.some.inj found
          obtain rfl : depth = 1 := by omega
          exact ⟨[], token, others, rfl, rfl, rfl, closes⟩
        grind
      grind

end Closing

section Matching

variable {inside after tokens : List Token} {opener closer : Token} {pos : Nat}

theorem lexeme_eq {token : Token} {kind : TokenKind} {text : List Char}
    (same : lexeme token = ⟨kind, text⟩) : token.kind = kind ∧ token.text = String.ofList text := by
  obtain ⟨kinds, texts⟩ := Lexeme.mk.inj same
  exact ⟨kinds, by rw [← texts, String.ofList_toList]⟩

theorem closingBracket?_of_mem (isPair : (lexeme opener, lexeme closer) ∈ bracketPairs) :
    closingBracket? opener.text = some closer.text ∧ opener.kind = .punct ∧ closer.kind = .punct := by
  rcases mem_bracketPairs.mp isPair with same | same | same <;>
    · obtain ⟨opens, closes⟩ := Prod.mk.inj same
      obtain ⟨openKind, openText⟩ := lexeme_eq opens
      obtain ⟨closeKind, closeText⟩ := lexeme_eq closes
      rw [openText, closeText]
      exact ⟨rfl, openKind, closeKind⟩

theorem isPunct_text {token : Token} {text : String} (isPunct : token.isPunct text) :
    token.text = text := by
  simp only [Token.isPunct, Bool.and_eq_true, beq_iff_eq] at isPunct
  exact isPunct.2

theorem isPunct_of_kind {token : Token} (kind : token.kind = .punct) :
    token.isPunct token.text := by
  rw [isPunct, kind, beq_self_eq_true, beq_self_eq_true]
  rfl

/-- The bracket that closes another is found where the depth returns. -/
theorem matching?_of_depthAfter (isPair : (lexeme opener, lexeme closer) ∈ bracketPairs)
    (aligned : tokens.drop pos = opener :: (inside ++ closer :: after))
    (nested : depthAfter (lexeme opener, lexeme closer) 1 (inside.map lexeme) = some 1) :
    matching? tokens pos = some (pos + 1 + inside.length) := by
  obtain ⟨brackets, opens, closes⟩ := closingBracket?_of_mem isPair
  rw [lexeme, lexeme, opens, closes] at nested
  rw [matching?, aligned]
  dsimp only
  rw [brackets, Option.bind_some, closingDistance?, if_pos (isPunct_of_kind opens),
    closingDistance?_of_depthAfter brackets (Nat.le_refl 1) nested (isPunct_of_kind closes),
    Option.map_some, Option.map_some, Nat.add_assoc, Nat.add_comm 1]

theorem exists_of_matching? {closing : Nat} {rest : List Token} (kind : opener.kind = .punct)
    (aligned : tokens.drop pos = opener :: rest)
    (found : matching? tokens pos = some closing) :
    ∃ inside closer after, rest = inside ++ closer :: after ∧
      closing = pos + 1 + inside.length ∧ (lexeme opener, lexeme closer) ∈ bracketPairs ∧
      depthAfter (lexeme opener, lexeme closer) 1 (inside.map lexeme) = some 1 := by
  rw [matching?, aligned] at found
  obtain ⟨closerText, brackets, counted⟩ := Option.bind_eq_some_iff.mp found
  rw [closingDistance?, if_pos (isPunct_of_kind kind), Option.map_map] at counted
  obtain ⟨dist, measured, rfl⟩ := Option.map_eq_some_iff.mp counted
  obtain ⟨inside, closer, after, rfl, rfl, nested, closes⟩ :=
    exists_of_closingDistance? (Nat.le_refl 1) measured
  have same : bracketsOf opener.text closerText = (lexeme opener, lexeme closer) := by
    rw [isPunct_lexeme, beq_iff_eq] at closes
    rw [bracketsOf, closes, lexeme, kind]
  rw [same] at nested
  refine ⟨inside, closer, after, rfl, ?_, same ▸ bracketsOf_mem brackets, nested⟩
  simp only [Function.comp_apply]
  omega

theorem getElem?_closer (before inside after : List Token) (opener closer : Token) :
    (before ++ opener :: (inside ++ closer :: after))[before.length + 1 + inside.length]? =
      some closer := by grind

end Matching

end WebShader.Token
