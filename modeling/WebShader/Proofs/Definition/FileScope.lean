import WebShader.Proofs.Definition.Scanning
import WebShader.Proofs.SpanSet.Canonical

/-!
Contract: files that are sequences of complete items.

Owns: the items of a file, the definitions that the scan finds in them, and the
code that these definitions do not cover.

An item carries the proof that it is complete, so a list of items is a file.
-/

namespace WebShader.Token

open List

variable {offset : Nat} {pieces : List Lexeme} {token : Token} {tokens : List Token}
  {found : List Definition}

/-! Places and widths. -/

def width (pieces : List Lexeme) : Nat :=
  (pieces.flatMap Lexeme.text).length

@[simp] theorem width_nil : width [] = 0 := rfl

@[simp] theorem width_cons (piece : Lexeme) (rest : List Lexeme) :
    width (piece :: rest) = piece.text.length + width rest := by
  simp [width]

@[simp] theorem width_append (pieces others : List Lexeme) :
    width (pieces ++ others) = width pieces + width others := by
  simp [width]

theorem place_parts (offset : Nat) (pieces others : List Lexeme) :
    place offset (pieces ++ others) = place offset pieces ++ place (offset + width pieces) others :=
  place_append offset pieces others

theorem length_place (offset : Nat) (pieces : List Lexeme) :
    (place offset pieces).length = pieces.length := by
  rw [← length_map, lexeme_place]

/-- Tokens of lexemes that spell something start inside the lexemes. -/
theorem start_of_mem_place
    (mem : token ∈ place offset pieces) (solid : ∀ piece ∈ pieces, piece.text ≠ []) :
    offset ≤ token.start ∧ token.start < offset + width pieces := by
  induction pieces generalizing offset with
  | nil => cases mem
  | cons piece rest ih =>
    have positive := length_pos_iff.mpr (solid piece mem_cons_self)
    rw [width_cons]
    rcases mem_cons.mp mem with rfl | later
    · dsimp only
      omega
    grind

def codeTokens (tokens : List Token) : List Token :=
  (codeFrom false 0 tokens).map Placed.token

theorem map_token_codeFrom (onLine : Bool) (index other : Nat) (tokens : List Token) :
    (codeFrom onLine index tokens).map Placed.token =
      (codeFrom onLine other tokens).map Placed.token := by
  induction tokens generalizing onLine index other with
  | nil => rfl
  | cons token rest ih =>
    simp only [codeFrom]
    split
    · exact ih _ _ _
    · rw [map_cons, map_cons, ih _ (index + 1) (other + 1)]

theorem codeTokens_append (line : tokens.foldl onDirective false = false)
    (others : List Token) : codeTokens (tokens ++ others) = codeTokens tokens ++ codeTokens others := by
  rw [codeTokens, codeFrom_append, line, map_append, map_token_codeFrom false _ 0 others]
  rfl

theorem mem_of_mem_codeTokens (mem : token ∈ codeTokens tokens) : token ∈ tokens :=
  map_codeFrom_sublist.subset mem

theorem lexeme_codeTokens (tokens : List Token) :
    (codeTokens tokens).map lexeme = codePieces false (tokens.map lexeme) := by
  rw [codeTokens, map_map]
  exact codeFrom_lexemes false 0 tokens

theorem codeTokens_silent (silent : Silent (tokens.map lexeme)) : codeTokens tokens = [] := by
  rw [← map_eq_nil_iff (f := lexeme), lexeme_codeTokens, silent.1]

end WebShader.Token

namespace WebShader.Definition

open List Token

/-! Items. -/

/-- A function: a head, parameters in parentheses and a body in braces. -/
structure FunctionItem where
  head : List Lexeme
  precisions : List String
  returnType : String
  name : String
  parameters : List Lexeme
  between : List Lexeme
  body : List Lexeme
  isHead : FunctionHead head precisions returnType name
  nestedParameters : Nested false parameters false
  silent : Silent between
  nestedBody : Nested false body false

/-- A structure, with qualifiers in front of it, up to the semicolon behind its body. -/
structure StructItem where
  lead : List Lexeme
  qualifiers : List String
  head : List Lexeme
  name : String
  body : List Lexeme
  tail : List Lexeme
  leads : codePieces false lead = qualifiers.map word
  leadEnds : lead.foldl directiveAfter false = false
  names : ∀ word ∈ qualifiers ++ [name], isName word.toList = true
  plain : ∀ word ∈ qualifiers, word ≠ "struct"
  isHead : StructHead head name
  nestedBody : Nested false body false
  isTail : StructTail tail

/-- A complete item of a file. -/
inductive Item where
  /-- Blanks, comments and whole directive lines. -/
  | gap (pieces : List Lexeme) (silent : Silent pieces)
  /-- Code that opens no definition, up to the end of a statement. -/
  | statement (pieces : List Lexeme) (quiet : Quiet true pieces) (nested : Nested false pieces false)
  | function (item : FunctionItem)
  | struct (item : StructItem)

namespace FunctionItem

def opening (item : FunctionItem) : List Lexeme :=
  item.head ++ punct '(' :: (item.parameters ++ punct ')' :: (item.between ++ [punct '\x7b']))

def pieces (item : FunctionItem) : List Lexeme :=
  item.opening ++ (item.body ++ [punct '\x7d'])

def definition (item : FunctionItem) (offset : Nat) : Definition :=
  { kind := .function
    name := item.name
    returnType := item.returnType
    parameters := Text.trim (String.ofList (item.parameters.flatMap Lexeme.text))
    start := offset
    stop := offset + width item.pieces
    bodyStart := offset + width item.opening
    bodyStop := offset + width (item.opening ++ item.body) }

end FunctionItem

namespace StructItem

def core (item : StructItem) : List Lexeme :=
  item.head ++ punct '\x7b' :: (item.body ++ punct '\x7d' :: (item.tail ++ [punct ';']))

def pieces (item : StructItem) : List Lexeme :=
  item.lead ++ item.core

def definitionAt (item : StructItem) (offset : Nat) : Definition :=
  { kind := .struct
    name := item.name
    returnType := ""
    parameters := ""
    start := offset
    stop := offset + width item.core
    bodyStart := offset + width item.head + 1
    bodyStop := offset + width item.head + 1 + width item.body }

def definition (item : StructItem) (offset : Nat) : Definition :=
  item.definitionAt (offset + width item.lead)

end StructItem

namespace Item

def pieces : Item → List Lexeme
  | gap pieces _ => pieces
  | statement pieces _ _ => pieces
  | function item => item.pieces
  | struct item => item.pieces

def definitions (offset : Nat) : Item → List Definition
  | gap _ _ => []
  | statement _ _ _ => []
  | function item => [item.definition offset]
  | struct item => [item.definition offset]

def visible (offset : Nat) : Item → List Token
  | gap _ _ => []
  | statement pieces _ _ => codeTokens (place offset pieces)
  | function _ => []
  | struct item => codeTokens (place offset item.lead)

end Item

def piecesOf (items : List Item) : List Lexeme :=
  items.flatMap Item.pieces

def definitionsFrom (offset : Nat) : List Item → List Definition
  | [] => []
  | item :: rest => item.definitions offset ++ definitionsFrom (offset + width item.pieces) rest

def visibleFrom (offset : Nat) : List Item → List Token
  | [] => []
  | item :: rest => item.visible offset ++ visibleFrom (offset + width item.pieces) rest

/-! The scan. -/

/-- Wherever the tokens stand, the scan finds these definitions in them and goes on at the start
of a statement. -/
def Scans (atStart : Bool) (tokens : List Token) (found : List Definition) : Prop :=
  ∀ before after, scanFrom (before ++ (tokens ++ after)) atStart
      (codeFrom false before.length (tokens ++ after)) =
    (scanFrom (before ++ (tokens ++ after)) true
      (codeFrom false (before.length + tokens.length) after)).map (found ++ ·)

theorem map_nothing {outcome : Except Fault (List Definition)} : outcome.map ([] ++ ·) = outcome := by
  cases outcome <;> rfl

theorem Scans.append {atStart : Bool} {others : List Token} {more : List Definition}
    (first : Scans atStart tokens found) (second : Scans true others more) :
    Scans atStart (tokens ++ others) (found ++ more) := by
  intro before after
  have here := first before (others ++ after)
  have there := second (before ++ tokens) after
  rw [append_assoc, length_append] at there
  rw [append_assoc, here, there, length_append, Nat.add_assoc]
  cases scanFrom (before ++ (tokens ++ (others ++ after))) true
    (codeFrom false (before.length + (tokens.length + others.length)) after) with
  | error fault => rfl
  | ok defns => exact congrArg Except.ok (append_assoc ..).symm

theorem Scans.scan (scans : Scans true tokens found) : Definition.scan tokens = .ok found := by
  have scanned := scans [] []
  simp only [nil_append, append_nil, length_nil] at scanned
  rw [Definition.scan, code, scanned, codeFrom, scanFrom]
  exact congrArg Except.ok (append_nil _)

def placed (c : Char) (offset : Nat) : Token :=
  ⟨.punct, String.ofList [c], offset⟩

theorem lexeme_placed (c : Char) (offset : Nat) : lexeme (placed c offset) = punct c := by
  rw [lexeme, placed, String.toList_ofList, punct]

theorem stop_placed (c : Char) (offset : Nat) : (placed c offset).stop = offset + 1 := by
  rw [placed, Token.stop, String.length_ofList]
  rfl

theorem width_punct (c : Char) (rest : List Lexeme) : width (punct c :: rest) = 1 + width rest :=
  width_cons (punct c) rest

theorem place_nil (offset : Nat) : place offset [] = [] := rfl

theorem place_punct (offset : Nat) (c : Char) (rest : List Lexeme) :
    place offset (punct c :: rest) = placed c offset :: place (offset + 1) rest := rfl

theorem scans_silent (silent : Silent pieces) (offset : Nat) :
    Scans true (place offset pieces) [] := by
  intro before after
  rw [codeFrom_silent (by rwa [lexeme_place]), map_nothing]

theorem scans_calm (calm : Calm true pieces) (offset : Nat) :
    Scans true (place offset pieces) [] := by
  intro before after
  rw [scanFrom_calm calm before (place offset pieces) after rfl (lexeme_place offset pieces),
    map_nothing]

theorem start_head_place (present : pieces ≠ []) :
    (place offset pieces).head?.map Token.start = some offset := by
  cases pieces with
  | nil => exact absurd rfl present
  | cons piece rest => rfl

theorem FunctionItem.scans (item : FunctionItem) (offset : Nat) :
    Scans true (place offset item.pieces) [item.definition offset] := by
  intro before after
  have present : item.head ≠ [] := by
    intro none
    have opens := item.isHead.opens
    rw [none] at opens
    cases opens
  have shape : place offset item.pieces ++ after =
      place offset item.head ++ placed '(' (offset + width item.head) ::
        (place (offset + width item.head + 1) item.parameters ++
          placed ')' (offset + width item.head + 1 + width item.parameters) ::
            (place (offset + width item.head + 1 + width item.parameters + 1) item.between ++
              placed '\x7b' (offset + width item.head + 1 + width item.parameters + 1 +
                  width item.between) ::
                (place (offset + width item.opening) item.body ++
                  placed '\x7d' (offset + width (item.opening ++ item.body)) :: after))) := by
    simp only [pieces, opening, place_parts, place_punct, place_nil, width_append, width_punct, width_nil,
      append_assoc, cons_append, nil_append, Nat.add_assoc]
  have length : (place offset item.pieces).length = (place offset item.head).length + 1 +
      (place (offset + width item.head + 1) item.parameters).length + 1 +
        (place (offset + width item.head + 1 + width item.parameters + 1) item.between).length + 1 +
          (place (offset + width item.opening) item.body).length + 1 := by
    simp only [length_place, pieces, opening, length_append, length_cons, length_nil]
    omega
  rw [shape, scanFrom_function rfl (by rw [lexeme_place]; exact item.isHead) (lexeme_placed _ _)
    (lexeme_placed _ _) (by rw [lexeme_place]; exact item.nestedParameters)
    (by rw [lexeme_place]; exact item.silent) (lexeme_placed _ _) (lexeme_placed _ _)
    (by rw [lexeme_place]; exact item.nestedBody) (start_head_place present), length]
  have stops : offset + width item.head + 1 + width item.parameters + 1 + width item.between + 1 =
      offset + width item.opening := by
    simp only [opening, width_append, width_punct, width_nil]
    omega
  have ends : offset + width (item.opening ++ item.body) + 1 = offset + width item.pieces := by
    simp only [pieces, width_append, width_punct, width_nil]
    omega
  rw [render_place, stop_placed, stop_placed, stops, ends]
  simp only [← Nat.add_assoc]
  rfl

/-- The code of a structure starts with its word, its name and a brace. -/
theorem StructItem.opens (item : StructItem) (offset index : Nat) (after : List Token) :
    ∃ others, (codeFrom false index (place offset item.core ++ after)).map pieceOf =
      word "struct" :: word item.name :: punct '\x7b' :: others := by
  have brace (rest : List Lexeme) : codePieces false (punct '\x7b' :: rest) =
      punct '\x7b' :: codePieces false rest := codePieces_cons rfl rest
  exact ⟨codePieces false (item.body ++ punct '\x7d' :: (item.tail ++ [punct ';']) ++
    after.map lexeme), (codeFrom_lexemes false index _).trans (by
      rw [map_append, lexeme_place, core, append_assoc, codePieces_append,
        item.isHead.ends, item.isHead.reads]
      grind)⟩

theorem StructItem.core_scans (item : StructItem) (offset : Nat) (atStart : Bool) :
    Scans atStart (place offset item.core) [item.definitionAt offset] := by
  intro before after
  have present : item.head ≠ [] := by
    intro none
    have opens := item.isHead.opens
    rw [none] at opens
    cases opens
  have shape : place offset item.core ++ after =
      place offset item.head ++ placed '\x7b' (offset + width item.head) ::
        (place (offset + width item.head + 1) item.body ++
          placed '\x7d' (offset + width item.head + 1 + width item.body) ::
            (place (offset + width item.head + 1 + width item.body + 1) item.tail ++
              placed ';' (offset + width item.head + 1 + width item.body + 1 + width item.tail) ::
                after)) := by
    simp only [core, place_parts, place_punct, place_nil, append_assoc, cons_append, nil_append]
  have length : (place offset item.core).length = (place offset item.head).length + 1 +
      (place (offset + width item.head + 1) item.body).length + 1 +
        (place (offset + width item.head + 1 + width item.body + 1) item.tail).length + 1 := by
    simp only [length_place, core, length_append, length_cons, length_nil]
    omega
  have ends : offset + width item.head + 1 + width item.body + 1 + width item.tail + 1 =
      offset + width item.core := by
    simp only [core, width_append, width_punct, width_nil]
    omega
  rw [shape, scanFrom_struct rfl (by rw [lexeme_place]; exact item.isHead) (lexeme_placed _ _)
    (lexeme_placed _ _) (by rw [lexeme_place]; exact item.nestedBody)
    (by rw [lexeme_place]; exact item.isTail) (lexeme_placed _ _) (start_head_place present), length,
    stop_placed, stop_placed, ends]
  simp only [← Nat.add_assoc]
  rfl

theorem StructItem.scans (item : StructItem) (offset : Nat) :
    Scans true (place offset item.pieces) [item.definition offset] := by
  intro before after
  have line : (place offset item.lead).foldl onDirective false = false := by
    rw [foldl_onDirective, lexeme_place, item.leadEnds]
  have leads : (codeFrom false before.length (place offset item.lead)).map pieceOf =
      item.qualifiers.map word := by
    rw [← item.leads]
    exact (codeFrom_lexemes false before.length (place offset item.lead)).trans
      (by rw [lexeme_place])
  rw [pieces, place_parts, append_assoc, codeFrom_append, line]
  -- the scan passes over the qualifiers, then stands at the structure
  obtain ⟨others, follows⟩ := item.opens (offset + width item.lead)
    (before.length + (place offset item.lead).length) after
  obtain ⟨state, passed⟩ := scanFrom_lead follows leads item.names item.plain true
  have found := item.core_scans (offset + width item.lead) state (before ++ place offset item.lead)
    after
  rw [append_assoc, length_append] at found
  rw [passed, found, length_append, Nat.add_assoc]
  rfl

/-- The scan finds the definitions of an item. -/
theorem Item.scans (item : Item) (offset : Nat) :
    Scans true (place offset item.pieces) (item.definitions offset) := by
  cases item with
  | gap pieces silent => exact scans_silent silent offset
  | statement pieces quiet nested => exact scans_calm quiet.calm offset
  | function item => exact item.scans offset
  | struct item => exact item.scans offset

theorem scans_items (items : List Item) (offset : Nat) :
    Scans true (place offset (piecesOf items)) (definitionsFrom offset items) := by
  induction items generalizing offset with
  | nil =>
    intro before after
    exact map_nothing.symm
  | cons item rest ih =>
    rw [piecesOf, flatMap_cons, place_parts]
    exact (item.scans offset).append (ih (offset + width item.pieces))

/-- The scan of a file finds the definitions of its items. -/
theorem scan_items (items : List Item) :
    scan (place 0 (piecesOf items)) = .ok (definitionsFrom 0 items) :=
  (scans_items items 0).scan

/-! The code outside the definitions. -/

def covers (definitions : List Definition) (offset : Nat) : Bool :=
  definitions.any fun definition => definition.start ≤ offset && offset < definition.stop

theorem contains_spanSet (defns : List Definition) (offset : Nat) :
    (spanSet defns).contains (offset : Int) = covers defns offset := by
  rw [Bool.eq_iff_iff, spanSet, SpanSet.contains_ofList, covers, any_eq_true]
  constructor
  · rintro ⟨span, mem, within⟩
    obtain ⟨defn, listed, rfl⟩ := mem_map.mp mem
    exact ⟨defn, listed, by simpa [SpanSet.Within] using within⟩
  grind [mem_map_of_mem, SpanSet.Within]

theorem covers_append (defns others : List Definition) (offset : Nat) :
    covers (defns ++ others) offset = (covers defns offset || covers others offset) :=
  any_append

theorem not_covers {defns : List Definition}
    (apart : ∀ defn ∈ defns, offset < defn.start ∨ defn.stop ≤ offset) :
    covers defns offset = false := by
  rw [covers, any_eq_false]
  intro defn mem
  have := apart defn mem
  simp
  omega

theorem Item.line (item : Item) : item.pieces.foldl directiveAfter false = false := by
  cases item with
  | gap pieces silent => exact silent.2
  | statement pieces quiet nested => exact nested.state
  | function item =>
    simp only [pieces, FunctionItem.pieces, FunctionItem.opening, foldl_append, foldl_cons,
      foldl_nil, directiveAfter_punct, item.isHead.ends, item.nestedParameters.state,
      item.silent.2, item.nestedBody.state]
  | struct item =>
    simp only [pieces, StructItem.pieces, StructItem.core, foldl_append, foldl_cons,
      foldl_nil, directiveAfter_punct, item.leadEnds, item.isHead.ends,
      item.nestedBody.state, item.isTail.ends]

theorem Item.codeTokens_append (item : Item) (offset : Nat) (others : List Token) :
    codeTokens (place offset item.pieces ++ others) =
      codeTokens (place offset item.pieces) ++ codeTokens others :=
  Token.codeTokens_append (by rw [foldl_onDirective, lexeme_place, item.line]) others

theorem Item.definitions_within (item : Item) (offset : Nat) :
    ∀ defn ∈ item.definitions offset,
      offset ≤ defn.start ∧ defn.stop ≤ offset + width item.pieces := by
  intro defn mem
  cases item with
  | gap pieces silent => cases mem
  | statement pieces quiet nested => cases mem
  | function item =>
    obtain rfl := mem_singleton.mp mem
    exact ⟨Nat.le_refl _, Nat.le_refl _⟩
  | struct item =>
    obtain rfl := mem_singleton.mp mem
    have whole : width item.pieces = width item.lead + width item.core := width_append _ _
    simp only [StructItem.definition, StructItem.definitionAt, pieces]
    omega

theorem definitionsFrom_within (items : List Item) (offset : Nat) :
    ∀ defn ∈ definitionsFrom offset items,
      offset ≤ defn.start ∧ defn.stop ≤ offset + width (piecesOf items) := by
  induction items generalizing offset with
  | nil =>
    intro defn mem
    cases mem
  | cons item rest ih =>
    intro defn mem
    have whole : width (piecesOf (item :: rest)) = width item.pieces + width (piecesOf rest) := by
      rw [piecesOf, flatMap_cons, width_append, piecesOf]
    rcases mem_append.mp mem with here | later
    · have := item.definitions_within offset defn here
      omega
    · have := ih _ defn later
      omega

/-- What the definition of an item leaves of its code. -/
theorem Item.filter_code (item : Item) (offset : Nat)
    (solid : ∀ piece ∈ item.pieces, piece.text ≠ []) :
    (codeTokens (place offset item.pieces)).filter
        (fun token => !covers (item.definitions offset) token.start) = item.visible offset := by
  cases item with
  | gap pieces silent =>
    rw [codeTokens_silent (by rwa [lexeme_place])]
    rfl
  | statement pieces quiet nested => exact filter_eq_self.mpr fun _ _ => rfl
  | function item =>
    refine filter_eq_nil_iff.mpr fun token mem => ?_
    have := start_of_mem_place (mem_of_mem_codeTokens mem) solid
    simp [definitions, covers]
    exact this
  | struct item =>
    have leadSolid : ∀ piece ∈ item.lead, piece.text ≠ [] :=
      fun piece mem => solid piece (mem_append_left _ mem)
    have coreSolid : ∀ piece ∈ item.core, piece.text ≠ [] :=
      fun piece mem => solid piece (mem_append_right _ mem)
    have line : (place offset item.lead).foldl onDirective false = false := by
      rw [foldl_onDirective, lexeme_place, item.leadEnds]
    rw [pieces, StructItem.pieces, place_parts, Token.codeTokens_append line, filter_append]
    have kept : (codeTokens (place offset item.lead)).filter
        (fun token => !covers [item.definition offset] token.start) =
          codeTokens (place offset item.lead) := by
      refine filter_eq_self.mpr fun token mem => ?_
      have inside := start_of_mem_place (mem_of_mem_codeTokens mem) leadSolid
      have apart : covers [item.definition offset] token.start = false :=
        not_covers fun defn listed => by
          obtain rfl := mem_singleton.mp listed
          exact .inl inside.2
      rw [apart]
      rfl
    have removed : (codeTokens (place (offset + width item.lead) item.core)).filter
        (fun token => !covers [item.definition offset] token.start) = [] := by
      refine filter_eq_nil_iff.mpr fun token mem => ?_
      have inside := start_of_mem_place (mem_of_mem_codeTokens mem) coreSolid
      simp [covers]
      exact inside
    rw [definitions, kept, removed, append_nil, visible]

/-- The definitions of a file leave the code of its items outside them. -/
theorem filter_code_items (items : List Item) (offset : Nat)
    (solid : ∀ piece ∈ piecesOf items, piece.text ≠ []) :
    (codeTokens (place offset (piecesOf items))).filter
        (fun token => !covers (definitionsFrom offset items) token.start) =
      visibleFrom offset items := by
  induction items generalizing offset with
  | nil => rfl
  | cons item rest ih =>
    have here : ∀ piece ∈ item.pieces, piece.text ≠ [] :=
      fun piece mem => solid piece (mem_append_left _ mem)
    have later : ∀ piece ∈ piecesOf rest, piece.text ≠ [] :=
      fun piece mem => solid piece (mem_append_right _ mem)
    rw [piecesOf, flatMap_cons, place_parts, item.codeTokens_append, filter_append,
      visibleFrom, ← item.filter_code offset here,
      ← ih (offset + width item.pieces) later, definitionsFrom]
    congr 1
    · refine filter_congr fun token mem => ?_
      have inside := start_of_mem_place (mem_of_mem_codeTokens mem) here
      have others : covers (definitionsFrom (offset + width item.pieces) rest) token.start = false :=
        not_covers fun defn listed => by
          have := definitionsFrom_within rest _ defn listed
          omega
      rw [covers_append, others, Bool.or_false]
    · refine filter_congr fun token mem => ?_
      have inside := start_of_mem_place (mem_of_mem_codeTokens mem) later
      have others : covers (item.definitions offset) token.start = false :=
        not_covers fun defn listed => by
          have := item.definitions_within offset defn listed
          omega
      rw [covers_append, others, Bool.false_or]

end WebShader.Definition
