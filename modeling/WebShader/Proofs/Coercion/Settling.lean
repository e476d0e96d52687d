import Mathlib.Logic.Function.Iterate
import Mathlib.Tactic.Choose
import WebShader.Proofs.Coercion.Round

/-!
Contract: what all rounds of coercion together do to a source.

Owns: the history of a source's tokens over any number of rounds, and when the
rounds settle.

Does not own: what one round does; that is `Round`.

## Why coercion may stop too early

A round only makes a source longer, so rounds never run in a circle, and each
round that changes something edits a token for the first time. A source has as
many edits to give as it has tokens that may be edited, but only four rounds are
run. A sum of integer uniforms behind a float needs one round for each of them.
-/

namespace WebShader.Coercion

open List Token

variable {onLine : Bool} {item : Item} {items later : List Item} {count : Nat}
  {context source : String}

/-! Tokens before the first round. -/

/-- The tokens of a source, those of the code marked and none edited. -/
def unedited (source : String) : List Item :=
  (lex source).zipIdx.map fun entry =>
    ⟨lexeme entry.1, (codePositions (lex source)).contains entry.2, .keep⟩

theorem unedited_kept (mem : item ∈ unedited source) : item.edit = .keep := by
  obtain ⟨entry, -, rfl⟩ := mem_map.mp mem
  rfl

theorem map_piece_unedited (source : String) :
    (unedited source).map Item.piece = lexemes source.toList := by
  rw [unedited, map_map]
  calc (lex source).zipIdx.map (fun entry => lexeme entry.1)
      = ((lex source).zipIdx.map Prod.fst).map lexeme := by rw [map_map]; rfl
    _ = lexemes source.toList := by
        rw [zipIdx_map_fst, lex_eq_place, lexeme_place]

theorem editedPieces_kept (kept : ∀ item ∈ items, item.edit = .keep) :
    editedPieces items = items.map Item.piece := by
  induction items with
  | nil => rfl
  | cons item rest ih =>
    rw [editedPieces, flatMap_cons, Item.pieces, kept item mem_cons_self]
    exact congrArg (item.piece :: ·) (ih (forall_mem_cons.mp kept).2)

/-- Marks that agree with the code from a position on. -/
theorem marked_zipIdx {isCode : Nat → Bool} {pos : Nat} {tokens : List Token}
    (agrees : ∀ index, pos ≤ index →
      isCode index = ((codeFrom onLine pos tokens).map Placed.position).contains index) :
    Marked onLine ((tokens.zipIdx pos).map fun entry =>
      ⟨lexeme entry.1, isCode entry.2, .keep⟩) := by
  induction tokens generalizing onLine pos with
  | nil => trivial
  | cons token rest ih =>
    have beyond : ((codeFrom (onDirective onLine token) (pos + 1) rest).map
        Placed.position).contains pos = false := by
      apply Bool.eq_false_iff.mpr
      intro listed
      obtain ⟨placed, found, same⟩ := mem_map.mp (contains_iff_mem.mp listed)
      have atLeast := le_of_mem_codeFrom found
      omega
    cases inside : onDirective onLine token || token.isTrivia with
    | true =>
      rw [codeFrom_outside inside] at agrees
      refine ⟨?_, ih fun index atLeast => agrees index (by omega)⟩
      exact ((agrees pos (Nat.le_refl pos)).trans beyond).trans (congrArg Bool.not inside).symm
    | false =>
      rw [codeFrom_inside inside] at agrees
      refine ⟨?_, ih fun index atLeast => ?_⟩
      · exact ((agrees pos (Nat.le_refl pos)).trans (by simp)).trans (congrArg Bool.not inside).symm
      · rw [agrees index (by omega), map_cons, contains_cons,
          beq_eq_false_iff_ne.mpr (by show index ≠ pos; omega)]
        rfl

/-! Histories. -/

/-- What the items of a source are after some rounds. -/
structure Reached (context source : String) (count : Nat) (items : List Item) : Prop where
  pieces : items.map Item.piece = lexemes source.toList
  marked : Marked false items
  fits : ∀ item ∈ items, item.fits = true
  text : ((round context)^[count] source).toList = editedText items

theorem Advances.map_piece (advances : List.Forall₂ Item.Advances items later) :
    later.map Item.piece = items.map Item.piece := by
  induction advances with
  | nil => rfl
  | cons first _ ih =>
    rw [map_cons, map_cons, ih, first.1]

theorem Advances.marked (advances : List.Forall₂ Item.Advances items later)
    (marked : Marked onLine items) : Marked onLine later := by
  induction advances generalizing onLine with
  | nil => trivial
  | cons first _ ih =>
    unfold Marked
    rw [first.1, first.2.1]
    exact ⟨marked.1, ih marked.2⟩

theorem Advances.fits (advances : List.Forall₂ Item.Advances items later)
    (fits : ∀ item ∈ items, item.fits) : ∀ item ∈ later, item.fits := by
  induction advances with
  | nil => exact fun _ mem => absurd mem not_mem_nil
  | cons first _ ih =>
    intro item mem
    rcases mem_cons.mp mem with rfl | further
    · exact first.fits (fits _ mem_cons_self)
    · exact ih (forall_mem_cons.mp fits).2 item further

theorem reached_unedited (context source : String) : Reached context source 0 (unedited source) where
  pieces := map_piece_unedited source
  marked := marked_zipIdx fun _ _ => rfl
  fits := by
    intro item mem
    rw [Item.fits, unedited_kept mem]
    rfl
  text := by
    rw [editedText, editedPieces_kept fun _ => unedited_kept, map_piece_unedited]
    exact (splits_lexemes source.toList).text_eq.symm

section Apart

variable {context source : String} (apart : numbersApart (lexemes source.toList) = true)

include apart

theorem Reached.splits (reached : Reached context source count items) :
    Splits ((round context)^[count] source).toList (editedPieces items) := by
  rw [reached.text]
  have original : Splits source.toList (items.map Item.piece) := by
    rw [reached.pieces]
    exact splits_lexemes source.toList
  exact (relexed_items original (by rwa [reached.pieces]) reached.fits).splits

/-- One more round. -/
theorem Reached.round (reached : Reached context source count items) :
    ∃ later, Steps [] items later ∧ Reached context source (count + 1) later := by
  obtain ⟨later, steps, text⟩ :=
    round_steps context reached.marked reached.fits (reached.splits apart)
  have advances := steps.advances
  refine ⟨later, steps, ?_, Advances.marked advances reached.marked,
    Advances.fits advances reached.fits, ?_⟩
  · rw [Advances.map_piece advances, reached.pieces]
  · rw [Function.iterate_succ_apply', text]

/-- The items of a source after every number of rounds. -/
theorem exists_steps (context : String) :
    ∃ history : Nat → List Item, history 0 = unedited source ∧
      ∀ count, Reached context source count (history count) ∧
        Steps [] (history count) (history (count + 1)) := by
  choose! next steps reached using
    fun (count : Nat) (items : List Item) (now : Reached context source count items) =>
      now.round apart
  let history : Nat → List Item := fun count => Nat.rec (unedited source) next count
  have all : ∀ count, Reached context source count (history count) := by
    intro count
    induction count with
    | zero => exact reached_unedited context source
    | succ count ih => exact reached count _ ih
  exact ⟨history, rfl, fun count => ⟨all count, steps count _ (all count)⟩⟩

theorem exists_history (context : String) :
    ∃ history : Nat → List Item, history 0 = unedited source ∧
      ∀ count, Reached context source count (history count) ∧
        List.Forall₂ Item.Advances (history count) (history (count + 1)) := by
  obtain ⟨history, first, reached⟩ := exists_steps apart context
  exact ⟨history, first, fun count => ⟨(reached count).1, (reached count).2.advances⟩⟩

end Apart

/-! The rounds of a coercion. -/

theorem rounds_value (context : String) (count : Nat) (source : String) :
    (rounds context count source).value = (round context)^[count] source := by
  induction count generalizing source with
  | zero => rfl
  | succ count ih =>
    rw [rounds]
    split
    next same =>
      have fixed : round context source = source := eq_of_beq same
      exact (Function.iterate_fixed fixed (count + 1)).symm
    · rw [ih, Function.iterate_succ_apply]

theorem coerce_value (context source : String) :
    (coerce context source).value = (round context)^[maxRounds] source :=
  rounds_value context maxRounds source

/-- Every token of a coerced source is a token of the source, or what became of one: a bare
integer with a fraction, or a name in a call. What becomes of a token is decided once in all
rounds, and only for tokens of the code. -/
theorem coerce_edits_once (context source : String)
    (apart : numbersApart (lexemes source.toList) = true) :
    ∃ history : Nat → List Item,
      history 0 = unedited source ∧
      (∀ count, List.Forall₂ Item.Advances (history count) (history (count + 1))) ∧
      (∀ count, ∀ item ∈ history count, item.fits = true) ∧
      (∀ count, lexemes ((round context)^[count] source).toList = editedPieces (history count)) ∧
      (coerce context source).value = (round context)^[maxRounds] source := by
  obtain ⟨history, first, reached⟩ := exists_history apart context
  refine ⟨history, first, fun count => (reached count).2, fun count => (reached count).1.fits,
    fun count => ?_, coerce_value context source⟩
  exact ((reached count).1.splits apart).lexemes_eq

/-- A literal behind an integer uniform is widened in the round after the uniform is cast. -/
def mixedSum : String :=
  "uniform int A;x=1.5+A+2;"

theorem coerce_edits_once_mixedSum :
    numbersApart (lexemes mixedSum.toList) = true ∧
      (coerce "" mixedSum).value = "uniform int A;x=1.5+float(A)+2.0;" ∧
      ∃ history : Nat → List Item,
        history 0 = unedited mixedSum ∧
        (∀ count, List.Forall₂ Item.Advances (history count) (history (count + 1))) ∧
        (∀ count, ∀ item ∈ history count, item.fits = true) ∧
        (∀ count, lexemes ((round "")^[count] mixedSum).toList = editedPieces (history count)) ∧
        (coerce "" mixedSum).value = (round "")^[maxRounds] mixedSum :=
  ⟨by decide +kernel, by decide +kernel, coerce_edits_once "" mixedSum (by decide +kernel)⟩

/-! Settling. -/

theorem length_le_iterate (context source : String) (count : Nat) :
    source.length ≤ ((round context)^[count] source).length := by
  induction count with
  | zero => exact Nat.le_refl _
  | succ count ih => grind [Function.iterate_succ_apply', round_grows]

/-- Rounds do not run in a circle. -/
theorem round_eq_of_iterate_eq (same : (round context)^[count + 1] source = source) :
    round context source = source := by
  grind [round_grows, length_le_iterate, Function.iterate_succ_apply]

theorem settled_of_no_warnings (silent : (rounds context count source).warnings = []) :
    round context ((round context)^[count] source) = (round context)^[count] source := by
  induction count generalizing source with
  | zero => cases silent
  | succ count ih =>
    rw [rounds] at silent
    split at silent
    next same =>
      have fixed : round context source = source := eq_of_beq same
      rw [Function.iterate_fixed fixed, fixed]
    · exact ih silent

/-- Whether an edit may ever suit an item. -/
def Item.isEditable (item : Item) : Bool :=
  item.isCode && (Edit.widen.suits item.piece || Edit.toFloat.suits item.piece)

def Item.isEdited (item : Item) : Bool :=
  item.edit != .keep

theorem Item.isEditable_of_isEdited (fits : item.fits) (edited : item.isEdited) :
    item.isEditable := by
  simp only [Item.isEdited, bne_iff_ne] at edited
  simp only [Item.fits, Bool.or_eq_true, beq_iff_eq, edited, false_or, Bool.and_eq_true] at fits
  rw [Item.isEditable, fits.1, Bool.true_and]
  cases shape : item.edit with
  | keep => exact absurd shape edited
  | widen => rw [← shape, fits.2, Bool.true_or]
  | toFloat | toInteger =>
    have ident : Edit.toFloat.suits item.piece := by
      rw [shape] at fits
      exact fits.2
    rw [ident, Bool.or_true]

theorem Advances.isEditable (advances : List.Forall₂ Item.Advances items later) :
    later.countP Item.isEditable = items.countP Item.isEditable := by
  induction advances with
  | nil => rfl
  | @cons item next _ _ first _ ih =>
    have same : next.isEditable = item.isEditable := by
      rw [Item.isEditable, Item.isEditable, first.1, first.2.1]
    rw [countP_cons, countP_cons, ih, same]

/-- A round that changes something edits an item for the first time. -/
theorem Advances.isEdited (advances : List.Forall₂ Item.Advances items later) :
    later = items ∨ items.countP Item.isEdited < later.countP Item.isEdited := by
  induction advances with
  | nil => exact .inl rfl
  | @cons item next rest others first _ ih =>
    obtain ⟨piece, isCode, edit⟩ := first
    by_cases same : next.edit = item.edit
    · have equal : next = item := by
        cases next
        simp_all
      grind
    · have kept : item.edit = .keep := by
        rcases edit with unchanged | ⟨kept, -⟩
        · exact absurd unchanged same
        · exact kept
      have before : item.isEdited = false := by rw [Item.isEdited, kept]; rfl
      have after : next.isEdited := by
        rw [Item.isEdited, bne_iff_ne, ← kept]
        exact same
      grind

/-- The rounds settle when there is nothing left to edit, if not before. -/
theorem exists_settled (context : String) (apart : numbersApart (lexemes source.toList)) :
    ∃ count, count ≤ (unedited source).countP Item.isEditable ∧
      round context ((round context)^[count] source) = (round context)^[count] source := by
  obtain ⟨history, first, reached⟩ := exists_history apart context
  have editable : ∀ count, (history count).countP Item.isEdited ≤
      (unedited source).countP Item.isEditable := by
    intro count
    have total : (history count).countP Item.isEditable =
        (unedited source).countP Item.isEditable := by
      induction count with
      | zero => rw [first]
      | succ count ih =>
        rw [Advances.isEditable (reached count).2, ih]
    rw [← total]
    exact countP_mono_left fun item mem =>
      Item.isEditable_of_isEdited ((reached count).1.fits item mem)
  apply Decidable.byContradiction
  intro unsettled
  -- each round up to the bound edits one item more
  have grows : ∀ count, count ≤ (unedited source).countP Item.isEditable + 1 →
      count ≤ (history count).countP Item.isEdited := by
    intro count atMost
    induction count with
    | zero => exact Nat.zero_le _
    | succ count ih =>
      rcases Advances.isEdited (reached count).2 with same | more
      · have text := (reached (count + 1)).1.text
        rw [same, ← (reached count).1.text, Function.iterate_succ_apply'] at text
        exact absurd ⟨count, by omega, String.toList_injective text⟩ unsettled
      · omega
  have most := editable ((unedited source).countP Item.isEditable + 1)
  grind

/-- A second coercion changes nothing exactly if four rounds settle the source. A coercion
without a warning has settled it, and some number of rounds does: at most one for each bare
integer and name in the code. -/
theorem coerce_idempotent_iff (context source : String) :
    ((coerce context (coerce context source).value).value = (coerce context source).value ↔
      (round context)^[maxRounds + 1] source = (round context)^[maxRounds] source) ∧
    ((coerce context source).warnings = [] →
      (coerce context (coerce context source).value).value = (coerce context source).value) ∧
    (numbersApart (lexemes source.toList) = true →
      ∃ count, count ≤ (unedited source).countP Item.isEditable ∧
        (round context)^[count + 1] source = (round context)^[count] source) := by
  have fixed : ∀ text : String, round context text = text → (coerce context text).value = text := by
    intro text same
    rw [coerce_value, Function.iterate_fixed same]
  refine ⟨⟨?_, ?_⟩, ?_, ?_⟩
  · intro same
    rw [Function.iterate_succ_apply', ← coerce_value]
    rw [coerce_value context (coerce context source).value] at same
    exact round_eq_of_iterate_eq same
  · intro same
    rw [Function.iterate_succ_apply', ← coerce_value] at same
    exact fixed _ same
  · intro silent
    have same := settled_of_no_warnings silent
    rw [← coerce_value] at same
    exact fixed _ same
  simp_all [exists_settled, Function.iterate_succ_apply']

/-- A sum that needs a round for each uniform, one more than are run. -/
def longSum : String :=
  "uniform int A,B,C,D,E;x=0.5+A+B+C+D+E;"

theorem coerce_idempotent_iff_longSum :
    ((coerce "" mixedSum).warnings = [] ∧
      (coerce "" (coerce "" mixedSum).value).value = (coerce "" mixedSum).value) ∧
    (coerce "" longSum).value =
      "uniform int A,B,C,D,E;x=0.5+float(A)+float(B)+float(C)+float(D)+E;" ∧
    (coerce "" (coerce "" longSum).value).value ≠ (coerce "" longSum).value ∧
    numbersApart (lexemes longSum.toList) = true ∧
    ∃ count, count ≤ (unedited longSum).countP Item.isEditable ∧
      (round "")^[count + 1] longSum = (round "")^[count] longSum := by
  have result : (coerce "" longSum).value =
      "uniform int A,B,C,D,E;x=0.5+float(A)+float(B)+float(C)+float(D)+E;" := by decide +kernel
  have changed : round "" (coerce "" longSum).value ≠ (coerce "" longSum).value := by
    rw [result]
    decide +kernel
  have apart : numbersApart (lexemes longSum.toList) = true := by decide +kernel
  have silent : (coerce "" mixedSum).warnings = [] := by decide +kernel
  obtain ⟨exactly, -, settles⟩ := coerce_idempotent_iff "" longSum
  refine ⟨⟨silent, (coerce_idempotent_iff "" mixedSum).2.1 silent⟩, result, ?_, apart,
    settles apart⟩
  rw [Ne, exactly, Function.iterate_succ_apply', ← coerce_value]
  exact changed

end WebShader.Coercion
