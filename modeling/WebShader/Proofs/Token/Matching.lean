import WebShader.Proofs.Token.Depth

/-!
Contract: brackets and the brackets that close them are laminar.

Owns: the bracket that closes another as the first place where brackets of one
kind are even, pairs within pairs, and that no two brackets are closed by one.

The search counts from its own bracket on. Where one search runs inside another,
its depth is that of the other one, less what was open in front of it.
-/

namespace WebShader.Token

open List

variable {pair : Lexeme × Lexeme} {depth last pos closing : Nat} {pieces front : List Lexeme}
  {tokens rest : List Token} {opener closer : String} {token : Token}

/-! Depth. -/

theorem depthAfter_add (found : depthAfter pair depth pieces = some last) (more : Nat) :
    depthAfter pair (depth + more) pieces = some (last + more) := by
  induction pieces generalizing depth with
  | nil =>
    obtain rfl := Option.some.inj found
    rfl
  | cons piece others ih =>
    rw [depthAfter] at found ⊢
    split at found
    next opens =>
      rw [if_pos opens, Nat.add_right_comm]
      exact ih found
    next other =>
      rw [if_neg other]
      split at found
      next closes =>
        split at found
        · cases found
        next deep =>
          rw [if_pos closes, if_neg (by omega), show depth + more - 1 = depth - 1 + more by omega]
          exact ih found
      next inside =>
        rw [if_neg inside]
        exact ih found

/-- A depth that is lost is lost at a closing bracket behind which nothing is open. -/
theorem exists_of_depthAfter_none (positive : 1 ≤ depth)
    (lost : depthAfter pair depth pieces = none) :
    ∃ inside after, pieces = inside ++ pair.2 :: after ∧ depthAfter pair depth inside = some 1 := by
  induction pieces generalizing depth with
  | nil => cases lost
  | cons piece others ih =>
    have step {next : Nat} (deep : 1 ≤ next) (lostLater : depthAfter pair next others = none)
        (counts : ∀ more, depthAfter pair depth (piece :: more) = depthAfter pair next more) :
        ∃ inside after, piece :: others = inside ++ pair.2 :: after ∧
          depthAfter pair depth inside = some 1 := by
      obtain ⟨inside, after, rfl, nested⟩ := ih deep lostLater
      exact ⟨piece :: inside, after, rfl, (counts inside).trans nested⟩
    rw [depthAfter] at lost
    split at lost
    next opens => exact step (by omega) lost fun more => by rw [depthAfter, if_pos opens]
    next other =>
      split at lost
      next closes =>
        split at lost
        next shallow =>
          obtain rfl : depth = 1 := by omega
          exact ⟨[], others, by rw [nil_append, beq_iff_eq.mp closes], rfl⟩
        next deep =>
          exact step (by omega) lost fun more => by
            rw [depthAfter, if_neg other, if_pos closes, if_neg deep]
      next inside =>
        exact step positive lost fun more => by rw [depthAfter, if_neg other, if_neg inside]

/-- As long as the depth is not lost, fewer brackets are closed than are open. -/
theorem count_lt_of_depthAfter (ne : pair.1 ≠ pair.2)
    (found : depthAfter pair 1 pieces = some last) (isFront : front <+: pieces) :
    front.count pair.2 < front.count pair.1 + 1 := by
  obtain ⟨back, rfl⟩ := isFront
  rw [depthAfter_append] at found
  obtain ⟨between, within, -⟩ := Option.bind_eq_some_iff.mp found
  have positive := depthAfter_pos (Nat.le_refl 1) within
  have counted := count_of_depthAfter ne within
  omega

/-! Positions. -/

structure OpensAt (tokens : List Token) (pos : Nat) (opener closer : String) : Prop where
  stands : ∃ token, tokens[pos]? = some token ∧ token.isPunct opener = true
  pair : closingBracket? opener = some closer

/-- The tokens from one position through a later one hold as many closing brackets of a kind as
opening ones. -/
structure EvenThrough (tokens : List Token) (opener closer : String) (first last : Nat) : Prop where
  order : first < last
  within : last < tokens.length
  even : ((tokens.drop first).take (last + 1 - first)).countP (·.isPunct opener) =
    ((tokens.drop first).take (last + 1 - first)).countP (·.isPunct closer)

theorem countP_isPunct (tokens : List Token) (text : String) :
    tokens.countP (·.isPunct text) = (tokens.map lexeme).count ⟨.punct, text.toList⟩ := by
  rw [count, countP_map]
  exact countP_congr fun token _ => by rw [isPunct_lexeme]; rfl

theorem OpensAt.drop (opens : OpensAt tokens pos opener closer) :
    ∃ token, tokens.drop pos = token :: tokens.drop (pos + 1) ∧ token.isPunct opener := by
  obtain ⟨token, found, isOpener⟩ := opens.stands
  obtain ⟨bound, rfl⟩ := List.getElem?_eq_some_iff.mp found
  exact ⟨tokens[pos], drop_eq_getElem_cons bound, isOpener⟩

theorem OpensAt.ne (opens : OpensAt tokens pos opener closer) :
    (bracketsOf opener closer).1 ≠ (bracketsOf opener closer).2 :=
  (pair_unique _ (bracketsOf_mem opens.pair) _ (bracketsOf_mem opens.pair)).2

/-- Brackets are even where one more is closed than opened behind the first one. -/
theorem OpensAt.evenThrough_iff (opens : OpensAt tokens pos opener closer) :
    EvenThrough tokens opener closer pos closing ↔ pos < closing ∧ closing < tokens.length ∧
      (((tokens.drop (pos + 1)).map lexeme).take (closing - pos)).count (bracketsOf opener closer).2 =
        (((tokens.drop (pos + 1)).map lexeme).take (closing - pos)).count
          (bracketsOf opener closer).1 + 1 := by
  obtain ⟨token, shape, isOpener⟩ := opens.drop
  have first : lexeme token = (bracketsOf opener closer).1 := by
    rwa [isPunct_lexeme, beq_iff_eq] at isOpener
  have counts (order : pos < closing) (text : String) :
      ((tokens.drop pos).take (closing + 1 - pos)).countP (·.isPunct text) =
        ((bracketsOf opener closer).1 :: ((tokens.drop (pos + 1)).map lexeme).take
          (closing - pos)).count ⟨.punct, text.toList⟩ := by
    rw [countP_isPunct, shape, show closing + 1 - pos = closing - pos + 1 by omega, take_succ_cons,
      map_cons, map_take, first]
  have opening (others : List Lexeme) :
      ((bracketsOf opener closer).1 :: others).count ⟨.punct, opener.toList⟩ =
        others.count (bracketsOf opener closer).1 + 1 := count_cons_self
  have ending (others : List Lexeme) :
      ((bracketsOf opener closer).1 :: others).count ⟨.punct, closer.toList⟩ =
        others.count (bracketsOf opener closer).2 := count_cons_of_ne opens.ne
  constructor
  · rintro ⟨order, within, even⟩
    rw [counts order, counts order, opening, ending] at even
    exact ⟨order, within, even.symm⟩
  · rintro ⟨order, within, even⟩
    refine ⟨order, within, ?_⟩
    rw [counts order, counts order, opening, ending, even]

/-- A bracket is closed exactly where the depth behind it is lost. -/
theorem OpensAt.matching?_iff (opens : OpensAt tokens pos opener closer) :
    matching? tokens pos = some closing ↔ ∃ inside after,
      (tokens.drop (pos + 1)).map lexeme = inside ++ (bracketsOf opener closer).2 :: after ∧
        closing = pos + 1 + inside.length ∧
        depthAfter (bracketsOf opener closer) 1 inside = some 1 := by
  obtain ⟨token, shape, isOpener⟩ := opens.drop
  have isFirst : lexeme token = (bracketsOf opener closer).1 := by
    rwa [isPunct_lexeme, beq_iff_eq] at isOpener
  have listed := bracketsOf_mem opens.pair
  constructor
  · intro found
    have kind : token.kind = .punct := congrArg Lexeme.kind isFirst
    obtain ⟨inside, ending, after, rest, rfl, isPair, nested⟩ :=
      exists_of_matching? kind shape found
    have same : lexeme ending = (bracketsOf opener closer).2 :=
      ((pair_unique _ isPair _ listed).1.mp isFirst)
    rw [isFirst, same] at nested
    exact ⟨inside.map lexeme, after.map lexeme, by rw [rest, map_append, map_cons, same],
      by rw [length_map], nested⟩
  · rintro ⟨inside, after, parts, rfl, nested⟩
    obtain ⟨insideTokens, others, rest, rfl, tail⟩ := map_eq_append_iff.mp parts
    obtain ⟨ending, afterTokens, rfl, isLast, -⟩ := map_eq_cons_iff.mp tail
    rw [rest] at shape
    rw [length_map]
    refine matching?_of_depthAfter (by rw [isFirst, isLast]; exact listed) shape ?_
    rwa [isFirst, isLast]

/-- A bracket is not closed exactly where the depth behind it is never lost. -/
theorem OpensAt.matching?_eq_none_iff (opens : OpensAt tokens pos opener closer) :
    matching? tokens pos = none ↔ ∃ last,
      depthAfter (bracketsOf opener closer) 1 ((tokens.drop (pos + 1)).map lexeme) = some last := by
  constructor
  · intro unmatched
    cases found : depthAfter (bracketsOf opener closer) 1 ((tokens.drop (pos + 1)).map lexeme) with
    | some last => exact ⟨last, rfl⟩
    | none =>
      obtain ⟨inside, after, parts, nested⟩ := exists_of_depthAfter_none (Nat.le_refl 1) found
      rw [opens.matching?_iff.mpr ⟨inside, after, parts, rfl, nested⟩] at unmatched
      cases unmatched
  · rintro ⟨last, kept⟩
    refine Option.eq_none_iff_forall_ne_some.mpr fun closing found => ?_
    obtain ⟨inside, after, parts, -, nested⟩ := opens.matching?_iff.mp found
    rw [parts, depthAfter_append, nested, Option.bind_some, depthAfter,
      if_neg (by simpa using opens.ne.symm), if_pos (beq_self_eq_true _)]
      at kept
    cases kept

/-! The first even place. -/

theorem OpensAt.not_even_of_none (opens : OpensAt tokens pos opener closer)
    (unmatched : matching? tokens pos = none) (other : Nat) :
    ¬EvenThrough tokens opener closer pos other := by
  intro even
  obtain ⟨last, kept⟩ := opens.matching?_eq_none_iff.mp unmatched
  have fewer := count_lt_of_depthAfter opens.ne kept (List.take_prefix (other - pos) _)
  have counted := (opens.evenThrough_iff.mp even).2.2
  omega

theorem OpensAt.least_of_some (opens : OpensAt tokens pos opener closer)
    (found : matching? tokens pos = some closing) :
    EvenThrough tokens opener closer pos closing ∧
      ∀ other, EvenThrough tokens opener closer pos other → closing ≤ other := by
  obtain ⟨inside, after, parts, rfl, nested⟩ := opens.matching?_iff.mp found
  have counted := count_of_depthAfter opens.ne nested
  have length := congrArg List.length parts
  rw [length_map, length_drop, length_append, length_cons] at length
  constructor
  · rw [opens.evenThrough_iff, parts, show pos + 1 + inside.length - pos = inside.length + 1 by omega,
      take_length_add_append, take_succ_cons, take_zero, count_append, count_append,
      count_singleton_self, count_singleton, if_neg (by simpa using opens.ne.symm)]
    omega
  · -- an even place in front of the closing bracket is one where the depth is not lost yet
    intro other even
    obtain ⟨order, -, evenCounts⟩ := opens.evenThrough_iff.mp even
    refine Nat.le_of_not_lt fun earlier => ?_
    have front : inside.take (other - pos) <+: inside := take_prefix _ _
    rw [parts, take_append_of_le_length (by omega)] at evenCounts
    have fewer := count_lt_of_depthAfter opens.ne nested front
    omega

/-! Pairs within pairs. -/

/-- A bracket of the same kind inside of a pair is closed in front of the pair's end. -/
theorem OpensAt.inner_matched {inner : Nat} (opens : OpensAt tokens pos opener closer)
    (found : matching? tokens pos = some closing) (inside : OpensAt tokens inner opener closer)
    (behind : pos < inner) (before : inner < closing) :
    ∃ other, matching? tokens inner = some other ∧ other < closing := by
  obtain ⟨between, after, parts, rfl, nested⟩ := opens.matching?_iff.mp found
  obtain ⟨token, shape, isOpener⟩ := inside.drop
  have isFirst : lexeme token = (bracketsOf opener closer).1 := by
    rwa [isPunct_lexeme, beq_iff_eq] at isOpener
  obtain ⟨count, rfl⟩ : ∃ count, inner = pos + 1 + count := ⟨inner - (pos + 1), by omega⟩
  -- the lexemes from the inner bracket on, once from each of the two brackets
  have fromInner : between.drop count ++ (bracketsOf opener closer).2 :: after =
      (bracketsOf opener closer).1 :: (tokens.drop (pos + 1 + count + 1)).map lexeme := by
    rw [← isFirst, ← map_cons, ← shape, ← drop_drop, map_drop, parts,
      drop_append_of_le_length (by omega)]
  obtain ⟨tail, rest, behindInner⟩ : ∃ tail, between.drop count = (bracketsOf opener closer).1 :: tail ∧
      (tokens.drop (pos + 1 + count + 1)).map lexeme =
        tail ++ (bracketsOf opener closer).2 :: after := by
    cases dropped : between.drop count with
    | nil =>
      have := congrArg List.length dropped
      rw [length_drop, length_nil] at this
      omega
    | cons piece tail =>
      rw [dropped] at fromInner
      obtain ⟨rfl, same⟩ := List.cons.inj fromInner
      exact ⟨tail, rfl, same.symm⟩
  have lost : depthAfter (bracketsOf opener closer) 1 tail = none := by
    refine Option.eq_none_iff_forall_ne_some.mpr fun last kept => ?_
    rw [← take_append_drop count between, rest, depthAfter_append] at nested
    obtain ⟨open_, reached, later⟩ := Option.bind_eq_some_iff.mp nested
    have positive := depthAfter_pos (Nat.le_refl 1) reached
    rw [depthAfter, if_pos (beq_self_eq_true _), Nat.add_comm, depthAfter_add kept] at later
    have ends := Option.some.inj later
    have kept := depthAfter_pos (Nat.le_refl 1) kept
    omega
  obtain ⟨front, back, rfl, closes⟩ := exists_of_depthAfter_none (Nat.le_refl 1) lost
  refine ⟨pos + 1 + count + 1 + front.length, inside.matching?_iff.mpr
    ⟨front, back ++ (bracketsOf opener closer).2 :: after, ?_, rfl, closes⟩, ?_⟩
  · rw [behindInner, append_assoc, cons_append]
  · have length := congrArg List.length rest
    rw [length_drop, length_cons, length_append, length_cons] at length
    omega

theorem OpensAt.getElem?_closing (opens : OpensAt tokens pos opener closer)
    (found : matching? tokens pos = some closing) :
    pos < closing ∧ (tokens[closing]?).map lexeme = some (bracketsOf opener closer).2 := by
  obtain ⟨inside, after, parts, rfl, -⟩ := opens.matching?_iff.mp found
  refine ⟨by omega, ?_⟩
  rw [← getElem?_drop, ← getElem?_map, parts, getElem?_append_right (Nat.le_refl _), Nat.sub_self,
    getElem?_cons_zero]

theorem OpensAt.not_shared {second : Nat} {otherOpener otherCloser : String}
    (opens : OpensAt tokens pos opener closer)
    (opensSecond : OpensAt tokens second otherOpener otherCloser) (order : pos < second)
    (found : matching? tokens pos = some closing) : matching? tokens second ≠ some closing := by
  intro again
  obtain ⟨-, closes⟩ := opens.getElem?_closing found
  obtain ⟨before, closesSecond⟩ := opensSecond.getElem?_closing again
  have sameCloser := Option.some.inj (closes.symm.trans closesSecond)
  have sameOpener := (pair_unique _ (bracketsOf_mem opens.pair) _ (bracketsOf_mem opensSecond.pair)).1.mpr
    sameCloser
  obtain rfl := String.toList_inj.mp (Lexeme.mk.inj sameOpener).2
  obtain rfl := String.toList_inj.mp (Lexeme.mk.inj sameCloser).2
  obtain ⟨other, matched, earlier⟩ := opens.inner_matched found opensSecond order before
  rw [again] at matched
  exact Nat.lt_irrefl _ (Option.some.inj matched ▸ earlier)

/-- The bracket that closes an opening bracket is the first one through which brackets of its kind
are even, and there is none exactly if they never are. Brackets of the kind inside of a pair are
closed inside of it, and no bracket closes two. -/
theorem matching?_laminar (tokens : List Token) :
    (∀ pos opener closer, OpensAt tokens pos opener closer →
      (∀ closing, matching? tokens pos = some closing ↔
        EvenThrough tokens opener closer pos closing ∧
          ∀ other, EvenThrough tokens opener closer pos other → closing ≤ other) ∧
      (matching? tokens pos = none ↔ ∀ other, ¬EvenThrough tokens opener closer pos other) ∧
      ∀ closing, matching? tokens pos = some closing →
        ∀ inner, pos < inner → inner < closing → OpensAt tokens inner opener closer →
          ∃ other, matching? tokens inner = some other ∧ other < closing) ∧
    ∀ first second opener closer otherOpener otherCloser, first ≠ second →
      OpensAt tokens first opener closer → OpensAt tokens second otherOpener otherCloser →
      ∀ closing, matching? tokens first = some closing → matching? tokens second ≠ some closing := by
  refine ⟨fun pos opener closer opens => ⟨fun closing => ⟨opens.least_of_some, ?_⟩,
    ⟨opens.not_even_of_none, ?_⟩, fun closing found inner behind before inside =>
      opens.inner_matched found inside behind before⟩, ?_⟩
  · rintro ⟨even, least⟩
    cases found : matching? tokens pos with
    | none => exact absurd even (opens.not_even_of_none found closing)
    | some other =>
      obtain ⟨otherEven, otherLeast⟩ := opens.least_of_some found
      rw [Nat.le_antisymm (least other otherEven) (otherLeast closing even)]
  · intro never
    refine Option.eq_none_iff_forall_ne_some.mpr fun closing found => ?_
    exact never closing (opens.least_of_some found).1
  · intro first second opener closer otherOpener otherCloser ne opens opensSecond closing found again
    rcases Nat.lt_or_gt_of_ne ne with order | order
    · exact opens.not_shared opensSecond order found again
    · exact opensSecond.not_shared opens order again found

/-- Brackets of two kinds, with one that is never closed. -/
theorem matching?_laminar_unclosed :
    OpensAt (lex "(a[(b)](c") 0 "(" ")" ∧ matching? (lex "(a[(b)](c") 0 = none ∧
      OpensAt (lex "(a[(b)](c") 3 "(" ")" ∧ matching? (lex "(a[(b)](c") 3 = some 5 ∧
      (∀ other, ¬EvenThrough (lex "(a[(b)](c") "(" ")" 0 other) ∧
      matching? (lex "(a[(b)](c") 7 ≠ some 5 := by
  have outer : OpensAt (lex "(a[(b)](c") 0 "(" ")" := ⟨⟨⟨.punct, "(", 0⟩, by decide +kernel, rfl⟩, rfl⟩
  have inner : OpensAt (lex "(a[(b)](c") 3 "(" ")" := ⟨⟨⟨.punct, "(", 3⟩, by decide +kernel, rfl⟩, rfl⟩
  have later : OpensAt (lex "(a[(b)](c") 7 "(" ")" := ⟨⟨⟨.punct, "(", 7⟩, by decide +kernel, rfl⟩, rfl⟩
  have unmatched : matching? (lex "(a[(b)](c") 0 = none := by decide +kernel
  have matched : matching? (lex "(a[(b)](c") 3 = some 5 := by decide +kernel
  obtain ⟨each, apart⟩ := matching?_laminar (lex "(a[(b)](c")
  exact ⟨outer, unmatched, inner, matched, (each 0 "(" ")" outer).2.1.mp unmatched,
    apart 3 7 "(" ")" "(" ")" (by decide) inner later 5 matched⟩

end WebShader.Token
