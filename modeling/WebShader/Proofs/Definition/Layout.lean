import WebShader.Proofs.Definition.Extraction
import WebShader.Proofs.Token.Spelling

/-!
Contract: texts that stand one behind the other with line ends between them.

Owns: files put together from parts, such texts as files, and that what is read from each of them does not
depend on where it stands.
-/

namespace WebShader.Definition

open List Token

variable {offset : Nat} {token : Token}

/-! Files in two parts. -/

theorem piecesOf_append (items others : List Item) :
    piecesOf (items ++ others) = piecesOf items ++ piecesOf others :=
  flatMap_append

theorem definitionsFrom_append (offset : Nat) (items others : List Item) :
    definitionsFrom offset (items ++ others) =
      definitionsFrom offset items ++ definitionsFrom (offset + width (piecesOf items)) others := by
  induction items generalizing offset with
  | nil => rfl
  | cons item rest ih => grind [piecesOf, width_append, definitionsFrom]

theorem visibleFrom_append (offset : Nat) (items others : List Item) :
    visibleFrom offset (items ++ others) =
      visibleFrom offset items ++ visibleFrom (offset + width (piecesOf items)) others := by
  induction items generalizing offset with
  | nil => rfl
  | cons item rest ih => grind [piecesOf, width_append, visibleFrom]

/-! Files further behind. -/

theorem Item.visible_shift (item : Item) (offset dist : Nat) :
    item.visible (offset + dist) = (item.visible offset).map (shift dist) := by
  cases item with
  | gap pieces silent => rfl
  | statement pieces quiet nested => rw [visible, place_shift, codeTokens_shift, visible]
  | function item => rfl
  | struct item => rw [visible, place_shift, codeTokens_shift, visible]

theorem visibleFrom_shift (items : List Item) (offset dist : Nat) :
    visibleFrom (offset + dist) items = (visibleFrom offset items).map (shift dist) := by
  induction items generalizing offset with
  | nil => rfl
  | cons item rest ih =>
    rw [visibleFrom, visibleFrom, map_append, item.visible_shift, ← ih, Nat.add_right_comm]

theorem map_signature_definitionsFrom (items : List Item) (offset other : Nat) :
    (definitionsFrom offset items).map Preamble.signature =
      (definitionsFrom other items).map Preamble.signature := by
  induction items generalizing offset other with
  | nil => rfl
  | cons item rest ih =>
    have here : (item.definitions offset).map Preamble.signature =
        (item.definitions other).map Preamble.signature := by
      cases item <;> rfl
    rw [definitionsFrom, definitionsFrom, map_append, map_append, here,
      ih (offset + width item.pieces) (other + width item.pieces)]

/-! Depth. -/

theorem depthOf_words (words : List String) (depth : Int) :
    (words.map word).foldl depthOf depth = depth := by
  induction words with
  | nil => rfl
  | cons name rest ih =>
    rw [map_cons, foldl_cons, depthOf_word, ih]

theorem Item.visible_depth (item : Item) (offset : Nat) (depth : Int) :
    (item.visible offset).foldl Preamble.depthAfter depth = depth := by
  cases item with
  | gap pieces silent => rfl
  | statement pieces quiet nested =>
    rw [visible, Preamble.foldl_depthAfter, lexeme_codeTokens, lexeme_place, nested.depth]
  | function item => rfl
  | struct item =>
    rw [visible, Preamble.foldl_depthAfter, lexeme_codeTokens, lexeme_place, item.leads,
      depthOf_words]

theorem visibleFrom_depth (items : List Item) (offset : Nat) (depth : Int) :
    (visibleFrom offset items).foldl Preamble.depthAfter depth = depth := by
  induction items generalizing offset with
  | nil => rfl
  | cons item rest ih =>
    rw [visibleFrom, foldl_append, item.visible_depth, ih]

/-! Tokens of a file. -/

theorem stop_of_mem_place {pieces : List Lexeme}
    (mem : token ∈ place offset pieces) : token.stop ≤ offset + width pieces := by
  induction pieces generalizing offset with
  | nil => cases mem
  | cons piece rest ih =>
    rw [width_cons]
    rcases mem_cons.mp mem with rfl | later
    · simp only [Token.stop, String.length_ofList]
      omega
    · have := ih later
      omega

theorem Item.mem_pieces_of_visible {item : Item}
    (mem : token ∈ item.visible offset) : token ∈ place offset item.pieces := by
  cases item with
  | gap pieces silent => cases mem
  | statement pieces quiet nested => exact mem_of_mem_codeTokens mem
  | function item => cases mem
  | struct item =>
    rw [pieces, StructItem.pieces, place_parts]
    exact mem_append_left _ (mem_of_mem_codeTokens mem)

theorem mem_piecesOf_of_visible {items : List Item}
    (mem : token ∈ visibleFrom offset items) : token ∈ place offset (piecesOf items) := by
  induction items generalizing offset with
  | nil => cases mem
  | cons item rest ih =>
    rw [piecesOf, flatMap_cons, place_parts]
    rcases mem_append.mp mem with here | later
    · exact mem_append_left _ (Item.mem_pieces_of_visible here)
    · exact mem_append_right _ (ih later)

/-- An item that leaves no code behind its last statement. -/
def Item.Closes : Item → Prop
  | gap _ _ => True
  | statement pieces _ _ => (codePieces false pieces).getLast? = some (punct ';')
  | function _ => True
  | struct item => item.qualifiers = []

end WebShader.Definition

namespace WebShader.Preamble

open List Token Definition

/-! Statements. -/

theorem mem_of_mem_statementsFrom {depth : Int} {part tokens stmt : List Token}
    (listed : stmt ∈ statementsFrom depth part tokens) {token : Token}
    (mem : token ∈ stmt) : token ∈ part ∨ token ∈ tokens := by
  induction tokens generalizing depth part with
  | nil => cases listed
  | cons next rest ih =>
    rw [statementsFrom] at listed
    split at listed
    · grind
    grind

theorem unfinished_append (depth : Int) (part tokens others : List Token) :
    unfinished depth part (tokens ++ others) =
      unfinished (tokens.foldl depthAfter depth) (unfinished depth part tokens).reverse others := by
  induction tokens generalizing depth part with
  | nil => simp [unfinished]
  | cons token rest ih => grind [unfinished]

/-- Code that comes back to depth zero and ends with a semicolon leaves nothing unfinished. -/
theorem unfinished_ended {tokens : List Token} {last : Token} (ends : tokens.getLast? = some last)
    (semicolon : lexeme last = punct ';') (balanced : tokens.foldl depthAfter 0 = 0) :
    unfinished 0 [] tokens = [] := by
  obtain ⟨front, rfl⟩ := getLast?_eq_some_iff.mp ends
  rw [foldl_append, foldl_cons, foldl_nil] at balanced
  have isSemicolon : last.isPunct ";" := by
    rw [isPunct_lexeme, semicolon]
    rfl
  rw [unfinished_append, unfinished, balanced, isSemicolon]
  rfl

theorem unfinished_closing {item : Item} (closes : item.Closes) (offset : Nat) :
    unfinished 0 [] (item.visible offset) = [] := by
  cases item with
  | gap pieces silent => rfl
  | statement pieces quiet nested =>
    have reads := lexeme_codeTokens (place offset pieces)
    rw [lexeme_place] at reads
    rw [Item.Closes, ← reads, getLast?_map, Option.map_eq_some_iff] at closes
    obtain ⟨last, ends, semicolon⟩ := closes
    exact unfinished_ended ends semicolon ((Item.statement pieces quiet nested).visible_depth offset 0)
  | function item => rfl
  | struct item =>
    have reads := lexeme_codeTokens (place offset item.lead)
    rw [lexeme_place, item.leads, closes, map_nil, map_eq_nil_iff] at reads
    rw [Item.visible, reads]
    rfl

end WebShader.Preamble

namespace WebShader.Definition

open List Token

variable {items : List Item} {text : List Char}

/-- A text that is one item of a file, whatever follows it. -/
structure Entry where
  text : String
  item : Item
  spelled : lexemes text.toList = item.pieces
  closed : Closed item.pieces
  closes : item.Closes

theorem silent_lineFeed : Silent [lineFeed] := by
  decide

/-- Entries one behind the other, with line ends between them, and the items of their text. -/
inductive Laid : List Entry → List Char → List Item → Prop where
  | nil : Laid [] [] []
  | lineFeed {entries : List Entry} {text : List Char} {items : List Item}
      (others : Laid entries text items) :
      Laid entries ('\n' :: text) (.gap [lineFeed] silent_lineFeed :: items)
  | entry (entry : Entry) {entries : List Entry} {text : List Char} {items : List Item}
      (others : Laid entries text items) :
      Laid (entry :: entries) (entry.text.toList ++ text) (entry.item :: items)

theorem Laid.append {entries others : List Entry} {more : List Char} {rest : List Item}
    (first : Laid entries text items) (second : Laid others more rest) :
    Laid (entries ++ others) (text ++ more) (items ++ rest) := by
  induction first with
  | nil => exact second
  | lineFeed _ ih => exact .lineFeed ih
  | entry entry _ ih =>
    rw [append_assoc]
    exact .entry entry ih

theorem exists_laid_lines (lines : ∀ c ∈ text, c = '\n') : ∃ items, Laid [] text items := by
  induction text with
  | nil => exact ⟨[], .nil⟩
  | cons c rest ih =>
    obtain ⟨items, laid⟩ := ih (forall_mem_cons.mp lines).2
    obtain rfl := lines c mem_cons_self
    exact ⟨_, .lineFeed laid⟩

/-- Parts that are laid out are so with line ends between them. -/
theorem exists_laid_intercalate {sep : String} (lines : ∀ c ∈ sep.toList, c = '\n')
    {parts : List (List Entry × String)}
    (each : ∀ part ∈ parts, ∃ items, Laid part.1 part.2.toList items) :
    ∃ items, Laid (parts.flatMap Prod.fst)
      (String.intercalate sep (parts.map Prod.snd)).toList items := by
  induction parts with
  | nil => exact ⟨[], .nil⟩
  | cons part rest ih =>
    obtain ⟨first, laidFirst⟩ := each part mem_cons_self
    cases rest with
    | nil => simp_all
    | cons second more =>
      obtain ⟨others, laidOthers⟩ := ih (forall_mem_cons.mp each).2
      obtain ⟨gaps, laidGaps⟩ := exists_laid_lines lines
      have joined := laidFirst.append (laidGaps.append laidOthers)
      grind [String.intercalate_cons_cons, String.toList_append]

theorem exists_laid_entries {sep : String} (lines : ∀ c ∈ sep.toList, c = '\n')
    (entries : List Entry) :
    ∃ items, Laid entries (String.intercalate sep (entries.map Entry.text)).toList items := by
  have single (entry : Entry) : Laid [entry] entry.text.toList [entry.item] := by
    have laid := Laid.entry entry .nil
    rwa [append_nil] at laid
  have laid := @exists_laid_intercalate sep lines
    (entries.map fun entry => ([entry], entry.text)) (by grind)
  simpa [flatMap_map, Function.comp_def] using laid

/-- The lexemes of a text that is laid out are those of its items. -/
theorem Laid.splits {entries : List Entry} (laid : Laid entries text items) :
    Splits text (piecesOf items) := by
  induction laid with
  | nil => exact .nil
  | lineFeed _ ih => exact ih.lineFeed_cons
  | entry entry _ ih =>
    have here := splits_lexemes entry.text.toList
    rw [entry.spelled] at here
    exact here.append_closed entry.closed ih

theorem Laid.lexemes {entries : List Entry} (laid : Laid entries text items) :
    lexemes text = piecesOf items :=
  laid.splits.lexemes_eq

theorem Entry.width_pieces (entry : Entry) : width entry.item.pieces = entry.text.length := by
  rw [width, ← entry.spelled, (splits_lexemes entry.text.toList).text_eq, String.length_toList]

/-! Definitions. -/

def moved (distance : Nat) (definition : Definition) : Definition :=
  { definition with
    start := definition.start + distance
    stop := definition.stop + distance
    bodyStart := definition.bodyStart + distance
    bodyStop := definition.bodyStop + distance }

theorem Item.definitions_moved (item : Item) (offset : Nat) :
    item.definitions offset = (item.definitions 0).map (moved offset) := by
  cases item with
  | gap pieces silent => rfl
  | statement pieces quiet nested => rfl
  | function item =>
    simp [definitions, FunctionItem.definition, moved, Nat.add_comm]
  | struct item =>
    simp only [definitions, StructItem.definition, StructItem.definitionAt, map_cons,
      map_nil, moved, List.cons.injEq, Definition.mk.injEq, true_and, and_true]
    omega

/-- What is read from a definition does not depend on where its text stands. -/
def Portable {α : Type} (view : String → Definition → α) : Prop :=
  ∀ (front text back : String) (definition : Definition), definition.stop ≤ text.length →
    view (front ++ text ++ back) (moved front.length definition) = view text definition

theorem front_lineFeed (front back : String) (text : List Char) :
    front ++ String.ofList ('\n' :: text) ++ back =
      front ++ "\n" ++ String.ofList text ++ back := by
  rw [← String.toList_inj]
  simp

theorem front_entry (front back : String) (entry : Entry) (text : List Char) :
    front ++ String.ofList (entry.text.toList ++ text) ++ back =
      front ++ entry.text ++ String.ofList text ++ back := by
  rw [← String.toList_inj]
  simp

/-- What is read from the definitions of laid out entries is read from the single entries. -/
theorem Laid.definitions {α : Type} {view : String → Definition → α} (portable : Portable view)
    {entries : List Entry} (laid : Laid entries text items) (front back : String) :
    (definitionsFrom front.length items).map (view (front ++ String.ofList text ++ back)) =
      entries.flatMap fun entry => (entry.item.definitions 0).map (view entry.text) := by
  induction laid generalizing front with
  | nil => rfl
  | lineFeed _ ih =>
    have later := ih (front ++ "\n")
    rw [String.length_append] at later
    rw [front_lineFeed]
    exact later
  | @entry entry entries text items _ ih =>
    have later := ih (front ++ entry.text)
    rw [String.length_append] at later
    rw [definitionsFrom, map_append, front_entry, entry.width_pieces, later,
      entry.item.definitions_moved, map_map, String.append_assoc]
    congr 1
    refine map_congr_left fun defn mem => ?_
    have within := (entry.item.definitions_within 0 defn mem).2
    rw [Nat.zero_add, entry.width_pieces] at within
    exact portable front entry.text _ defn within

/-! Statements. -/

open Preamble

theorem statementsFrom_closing {item : Item} (closes : item.Closes) (offset : Nat)
    (others : List Token) :
    statementsFrom 0 [] (item.visible offset ++ others) =
      statementsFrom 0 [] (item.visible offset) ++ statementsFrom 0 [] others := by
  rw [statementsFrom_append, item.visible_depth, unfinished_closing closes]
  rfl

theorem statementsFrom_moved (item : Item) (offset : Nat) :
    statementsFrom 0 [] (item.visible offset) =
      (statementsFrom 0 [] (item.visible 0)).map (List.map (shift offset)) := by
  have placed := item.visible_shift 0 offset
  have moved := statementsFrom_shift offset 0 [] (item.visible 0)
  grind

theorem Entry.inside (entry : Entry) {stmt : List Token}
    (listed : stmt ∈ statementsFrom 0 [] (entry.item.visible 0)) :
    Inside entry.text.length stmt := by
  intro token mem
  rcases mem_of_mem_statementsFrom listed mem with none | visible
  · cases none
  · have bounded := stop_of_mem_place (Item.mem_pieces_of_visible visible)
    rwa [Nat.zero_add, entry.width_pieces] at bounded

/-- What the statements of an entry declare. -/
def Entry.declared (entry : Entry) : List (Option Declaration) :=
  (statementsFrom 0 [] (entry.item.visible 0)).map (declaration? entry.text)

/-- What the statements of laid out entries declare is what the single entries declare. -/
theorem Laid.declarations {entries : List Entry} (laid : Laid entries text items)
    (front back : String) :
    (statementsFrom 0 [] (visibleFrom front.length items)).map
        (declaration? (front ++ String.ofList text ++ back)) = entries.flatMap Entry.declared := by
  induction laid generalizing front with
  | nil => rfl
  | lineFeed _ ih =>
    have later := ih (front ++ "\n")
    rw [String.length_append] at later
    rw [front_lineFeed]
    exact later
  | @entry entry entries text items _ ih =>
    have later := ih (front ++ entry.text)
    rw [String.length_append] at later
    rw [visibleFrom, statementsFrom_closing entry.closes, map_append, front_entry, entry.width_pieces, later, statementsFrom_moved, map_map,
      String.append_assoc]
    congr 1
    refine map_congr_left fun stmt listed => ?_
    exact declaration?_inside front entry.text _ (entry.inside listed)

end WebShader.Definition
