import Mathlib.Data.List.Chain
import WebShader.Proofs.Coercion.Settling

/-!
Contract: literals in places of integers stay in all rounds.

Owns: how edits change the brackets around a place.

Does not own: the brackets themselves; they are `Bracket`.

A round puts whole calls into the code and never one around the name in front of
an opening bracket. So brackets nest after a round as they did before it, and
the parentheses of an integer constructor stay what they are.
-/

namespace WebShader.Coercion

open List Token

variable {items laters : List Item} {item : Item} {passed : List Lexeme} {count : Nat}

theorem Item.pieces_punct (fits : item.fits) (isPunct : item.piece.kind = .punct) :
    item.pieces = [item.piece] := by
  have suits := Item.suits_of_fits fits
  rw [Item.pieces]
  cases shape : item.edit <;> simp [shape, Edit.suits, isPunct, Edit.pieces] at suits ⊢

theorem kind_of_mem_valueBrackets {pair : Lexeme × Lexeme} (mem : pair ∈ valueBrackets) :
    pair.1.kind = .punct ∧ pair.2.kind = .punct := by
  revert pair
  decide

/-- Edits leave brackets nested. -/
theorem Nests.edited (nests : Nests count (items.map Item.piece))
    (fits : ∀ item ∈ items, item.fits) : Nests count (items.flatMap Item.pieces) := by
  generalize shape : items.map Item.piece = pieces at nests
  induction nests generalizing items with
  | nil =>
    obtain rfl := map_eq_nil_iff.mp shape
    exact .nil
  | plain noBracket _ ih =>
    obtain ⟨item, rest, rfl, rfl, others⟩ := map_eq_cons_iff.mp shape
    have later := ih (forall_mem_cons.mp fits).2 others
    have suits := Item.suits_of_fits (fits item mem_cons_self)
    rw [flatMap_cons, Item.pieces]
    cases edit : item.edit with
    | keep => exact .plain noBracket later
    | widen =>
      have number : item.piece.kind = .number := by simp_all [Edit.suits]
      exact .plain (by rw [number]; rfl) later
    | toFloat | toInteger =>
      exact .plain rfl (@Nests.group _ (punct '(') (punct ')') [item.piece] _ (by decide)
        (.plain noBracket .nil) later)
  | group pair _ _ inner ih =>
    obtain ⟨opener, _, rfl, rfl, tail⟩ := map_eq_cons_iff.mp shape
    obtain ⟨inside, _, rfl, isInside, others⟩ := map_eq_append_iff.mp tail
    obtain ⟨closer, rest, rfl, rfl, isRest⟩ := map_eq_cons_iff.mp others
    obtain ⟨opens, closes⟩ := kind_of_mem_valueBrackets pair
    rw [flatMap_cons, flatMap_append, flatMap_cons, Item.pieces_punct (fits opener (by simp)) opens,
      Item.pieces_punct (fits closer (by simp)) closes]
    exact .group pair (inner (fun other mem => fits other (by simp [mem])) isInside)
      (ih (fun other mem => fits other (by simp [mem])) isRest)
  | opened isOpener _ ih =>
    obtain ⟨opener, rest, rfl, rfl, others⟩ := map_eq_cons_iff.mp shape
    obtain ⟨pair, mem, first⟩ := mem_map.mp isOpener
    have opens : opener.piece.kind = .punct := first ▸ (kind_of_mem_valueBrackets mem).1
    rw [flatMap_cons, Item.pieces_punct (fits opener mem_cons_self) opens]
    exact .opened isOpener (ih (forall_mem_cons.mp fits).2 others)

/-- A name in front of an opening bracket is not enclosed. -/
def Item.Precedes (item next : Item) : Prop :=
  next.piece ∈ valueBrackets.map Prod.fst → item.piece.kind = .ident → item.edit = .keep

theorem flatMap_code_filter (items : List Item) :
    (items.filter Item.isCode).flatMap Item.pieces = items.flatMap Item.code := by
  induction items with
  | nil => rfl
  | cons item rest ih =>
    rw [filter_cons, flatMap_cons, ← ih, Item.code]
    split <;> rfl

theorem Advances.code (advances : List.Forall₂ Item.Advances items laters) :
    (laters.filter Item.isCode).map Item.piece = (items.filter Item.isCode).map Item.piece := by
  induction advances with
  | nil => rfl
  | cons first _ ih =>
    rw [filter_cons, filter_cons, first.2.1]
    split
    · rw [map_cons, map_cons, ih, first.1]
    · exact ih

/-- A round encloses no name in front of an opening bracket. -/
theorem Steps.isChain (steps : Steps passed items laters) (fits : ∀ item ∈ items, item.fits)
    (chain : (items.filter Item.isCode).IsChain Item.Precedes) :
    (laters.filter Item.isCode).IsChain Item.Precedes := by
  induction steps with
  | nil => exact chain
  | @cons passed item later rest laters advances decided others ih =>
    have fitsRest : ∀ other ∈ rest, other.fits := (forall_mem_cons.mp fits).2
    rw [filter_cons] at chain ⊢
    rw [advances.2.1]
    split at chain
    next isCode =>
      obtain ⟨first, chain⟩ := isChain_cons.mp chain
      rw [if_pos isCode]
      refine isChain_cons.mpr ⟨?_, ih fitsRest chain⟩
      intro next follows opens ident
      -- the bracket stood there before the round
      have same : ((rest.filter Item.isCode).map Item.piece).head? = some next.piece := by
        rw [← Advances.code others.advances, head?_map, Option.mem_def.mp follows]
        rfl
      rw [head?_map] at same
      obtain ⟨bracket, found, piece⟩ := Option.map_eq_some_iff.mp same
      rcases decided with rfl | allowed
      · exact first bracket found (piece ▸ opens) ident
      · obtain ⟨pair, mem, isFirst⟩ := mem_map.mp opens
        have punct : bracket.piece.kind = .punct := by
          rw [piece, ← isFirst]
          exact (kind_of_mem_valueBrackets mem).1
        have bracketFits := fitsRest bracket (mem_filter.mp (mem_of_mem_head? found)).1
        obtain ⟨others, shape⟩ := head?_eq_some_iff.mp found
        rw [← flatMap_code_filter, shape, flatMap_cons, Item.pieces_punct bracketFits punct] at allowed
        refine Edit.eq_keep_of_ident allowed (advances.1 ▸ ident) ?_
        grind [valueBrackets]
    grind

theorem Constructs.edited {next : Item} (constructs : Constructs (items.map Item.piece))
    (fits : ∀ item ∈ items, item.fits) (opens : next.piece = punct '(')
    (chain : (items ++ [next]).IsChain Item.Precedes) :
    Constructs (items.flatMap Item.pieces) := by
  obtain ⟨front, name, size, listed, shape, sizes⟩ := constructs
  obtain ⟨first, _, rfl, -, tail⟩ := map_eq_append_iff.mp shape
  obtain ⟨owner, last, rfl, isOwner, isSize⟩ := map_eq_cons_iff.mp tail
  rw [append_assoc] at chain
  have precedes := (isChain_cons.mp chain.right_of_append).1
  have kept : ∀ bracket ∈ (last ++ [next]).head?,
      bracket.piece ∈ valueBrackets.map Prod.fst → owner.pieces = [word name] := by
    intro bracket follows isOpener
    have edit := precedes bracket follows isOpener (by rw [isOwner]; rfl)
    rw [Item.pieces, edit, ← isOwner]
    rfl
  refine ⟨first.flatMap Item.pieces, name, last.flatMap Item.pieces, listed, ?_, ?_⟩
  · rw [flatMap_append, flatMap_cons]
    rcases sizes with rfl | ⟨inside, nests, rfl⟩
    · obtain rfl := map_eq_nil_iff.mp isSize
      rw [kept next rfl (by rw [opens]; decide)]
      rfl
    · obtain ⟨opening, _, rfl, isOpening, -⟩ := map_eq_cons_iff.mp isSize
      rw [kept opening rfl (by rw [isOpening]; decide)]
      rfl
  · rcases sizes with rfl | ⟨inside, nests, rfl⟩
    · exact .inl (by rw [map_eq_nil_iff.mp isSize]; rfl)
    · obtain ⟨opening, _, rfl, isOpening, tail⟩ := map_eq_cons_iff.mp isSize
      obtain ⟨within, _, rfl, rfl, last⟩ := map_eq_append_iff.mp tail
      obtain ⟨closing, _, rfl, isClosing, none⟩ := map_eq_cons_iff.mp last
      obtain rfl := map_eq_nil_iff.mp none
      refine .inr ⟨within.flatMap Item.pieces,
        nests.edited fun item mem => fits item (by simp [mem]), ?_⟩
      rw [flatMap_cons, flatMap_append, flatMap_cons,
        Item.pieces_punct (fits opening (by simp)) (by rw [isOpening]; rfl),
        Item.pieces_punct (fits closing (by simp)) (by rw [isClosing]; rfl), isOpening, isClosing]
      rfl

/-- A place of integers stays one when the code before it is edited. -/
theorem HoldsIntegers.edited (holds : HoldsIntegers (items.map Item.piece))
    (fits : ∀ item ∈ items, item.fits) (chain : items.IsChain Item.Precedes) :
    HoldsIntegers (items.flatMap Item.pieces) := by
  obtain ⟨outer, opener, inner, count, shape, nests, kinds⟩ := holds
  obtain ⟨outside, _, rfl, rfl, tail⟩ := map_eq_append_iff.mp shape
  obtain ⟨opening, inside, rfl, rfl, rfl⟩ := map_eq_cons_iff.mp tail
  have isPunct : opening.piece.kind = .punct := by
    rcases kinds with square | ⟨round, -⟩
    · rw [square]
      rfl
    · rw [round]
      rfl
  refine ⟨outside.flatMap Item.pieces, opening.piece, inside.flatMap Item.pieces, count, ?_, ?_, ?_⟩
  · rw [flatMap_append, flatMap_cons, Item.pieces_punct (fits opening (by simp)) isPunct]
    rfl
  · exact nests.edited fun item mem => fits item (by simp [mem])
  · rcases kinds with square | ⟨round, constructs⟩
    · exact .inl square
    · have front : (outside ++ [opening]).IsChain Item.Precedes := by
        rw [append_cons] at chain
        exact chain.left_of_append
      exact .inr ⟨round, constructs.edited (fun item mem => fits item (by simp [mem]))
        round front⟩

/-- What a round makes of one item among others. -/
theorem Steps.split {left right : List Item} (steps : Steps passed (left ++ item :: right) laters) :
    ∃ front later rest, laters = front ++ later :: rest ∧ front.length = left.length ∧
      List.Forall₂ Item.Advances left front ∧ item.Advances later ∧
      (later = item ∨ ∃ next,
        later.edit.Allowed ((left.flatMap Item.code).reverse ++ passed) item.piece next) := by
  induction left generalizing passed laters with
  | nil =>
    cases steps with
    | cons advances decided others =>
      exact ⟨[], _, _, rfl, rfl, .nil, advances, decided.imp_right fun allowed => ⟨_, allowed⟩⟩
  | cons first left ih =>
    cases steps with
    | @cons _ _ later _ laters advances decided others =>
      obtain ⟨front, later, rest, rfl, length, earlier, own⟩ := ih others
      refine ⟨_ :: front, later, rest, rfl, by rw [length_cons, length_cons, length],
        .cons advances earlier, ?_⟩
      simpa using own

section Apart

variable {context source : String} {history : Nat → List Item} (first : history 0 = unedited source)
  (reached : ∀ count, Reached context source count (history count) ∧
    Steps [] (history count) (history (count + 1)))

include first reached

theorem isChain_history (count : Nat) :
    ((history count).filter Item.isCode).IsChain Item.Precedes := by
  induction count with
  | zero =>
    rw [first]
    refine isChain_iff_forall_rel_of_append_cons_cons.mpr fun item next _ _ split _ _ => ?_
    have mem : item ∈ (unedited source).filter Item.isCode := by simp [split]
    exact unedited_kept (mem_filter.mp mem).1
  | succ count ih => exact (reached count).2.isChain (reached count).1.fits ih

theorem kept_history {left right : List Item} {literal : Item}
    (shape : unedited source = left ++ literal :: right)
    (number : literal.piece.kind = .number)
    (holds : HoldsIntegers ((left.filter Item.isCode).map Item.piece)) (count : Nat) :
    ∃ front rest, history count = front ++ literal :: rest ∧ front.length = left.length ∧
      (front.filter Item.isCode).map Item.piece = (left.filter Item.isCode).map Item.piece := by
  induction count with
  | zero => exact ⟨left, right, first.trans shape, rfl, rfl⟩
  | succ count ih =>
    obtain ⟨front, rest, same, length, code⟩ := ih
    obtain ⟨now, steps⟩ := reached count
    have chain := isChain_history first reached count
    have fits := now.fits
    rw [same] at steps chain fits
    obtain ⟨front', later, rest', split, length', earlier, advances, decided⟩ := steps.split
    have unchanged : later = literal := by
      rcases decided with rfl | ⟨next, allowed⟩
      · rfl
      have inside : HoldsIntegers (front.flatMap Item.code) := by
        rw [← flatMap_code_filter]
        rw [← code] at holds
        rw [filter_append] at chain
        exact holds.edited (fun item mem => fits item (by simp [(mem_filter.mp mem).1]))
          chain.left_of_append
      have edit : later.edit = .keep := by
        cases shape : later.edit with
        | keep => rfl
        | widen =>
          rw [shape] at allowed
          exact absurd inside (by simpa using allowed.2)
        | toFloat | toInteger => grind [Edit.Allowed, Edit.suits]
      have kept : literal.edit = .keep := unedited_kept (by rw [shape]; simp)
      obtain ⟨piece, isCode, -⟩ := advances
      cases later
      cases literal
      simp_all
    exact ⟨front', rest', by rw [split, unchanged], length'.trans length,
      (Advances.code earlier).trans code⟩

end Apart

/-- Literals in subscripts, in parentheses of integer constructors and in layouts stay in all
rounds, at any depth. Every token of a source after some rounds is a token of the source or what
became of one, and nothing becomes of such a literal. -/
theorem coerce_keeps_integers (context source : String)
    (apart : numbersApart (lexemes source.toList) = true) :
    ∃ history : Nat → List Item, history 0 = unedited source ∧
      (∀ count, List.Forall₂ Item.Advances (history count) (history (count + 1))) ∧
      (∀ count, lexemes ((round context)^[count] source).toList = editedPieces (history count)) ∧
      (coerce context source).value = (round context)^[maxRounds] source ∧
      ∀ left literal right, unedited source = left ++ literal :: right →
        literal.piece.kind = .number →
        HoldsIntegers ((left.filter Item.isCode).map Item.piece) →
        ∀ count, (history count)[left.length]? = some literal := by
  obtain ⟨history, first, reached⟩ := exists_steps apart context
  refine ⟨history, first, fun count => (reached count).2.advances,
    fun count => ((reached count).1.splits apart).lexemes_eq, coerce_value context source, ?_⟩
  intro left literal right shape number holds count
  obtain ⟨front, rest, same, length, -⟩ := kept_history first reached shape number holds count
  grind

/-- Literals in a call in an array of integers, and in one of arrays. -/
def nestedArrays : String :=
  "x=int[N+1](f(2))[3]+1.5+N;y=int[2][2](4);"

theorem coerce_keeps_integers_nestedArrays :
    numbersApart (lexemes nestedArrays.toList) = true ∧
    (coerce "uniform int N;" nestedArrays).value =
      "x=int[N+1](f(2))[3]+1.5+float(N);y=int[2][2](4.0);" ∧
    ∃ history : Nat → List Item, history 0 = unedited nestedArrays ∧
      ∀ count, (history count)[11]? = some ⟨⟨.number, ['2']⟩, true, .keep⟩ := by
  have apart : numbersApart (lexemes nestedArrays.toList) = true := by decide +kernel
  obtain ⟨history, first, -, -, -, kept⟩ :=
    coerce_keeps_integers "uniform int N;" nestedArrays apart
  refine ⟨apart, by decide +kernel, history, first, ?_⟩
  have shape : unedited nestedArrays = (unedited nestedArrays).take 11 ++
      ⟨⟨.number, ['2']⟩, true, .keep⟩ :: (unedited nestedArrays).drop 12 := by decide +kernel
  have code : (((unedited nestedArrays).take 11).filter Item.isCode).map Item.piece =
      ([word "x", punct '='] ++ word "int" :: punct '[' ::
        ([word "N", punct '+', ⟨.number, ['1']⟩] ++ [punct ']'])) ++
      punct '(' :: [word "f", punct '('] := by decide +kernel
  have holds := kept _ _ _ shape rfl ⟨_, _, _, 1, code, .plain rfl (.opened (by decide) .nil),
    .inr ⟨rfl, _, "int", _, by decide, rfl,
      .inr ⟨_, .plain rfl (.plain rfl (.plain rfl .nil)), rfl⟩⟩⟩
  rwa [show ((unedited nestedArrays).take 11).length = 11 by decide +kernel] at holds

end WebShader.Coercion
