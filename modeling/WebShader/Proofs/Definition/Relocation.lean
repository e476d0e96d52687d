import WebShader.Definition.Preamble
import WebShader.Proofs.Definition.FileScope

/-!
Contract: statements that stand elsewhere in a longer text.

Owns: tokens moved by a distance, and the reading of declarations from them.

Reading looks at offsets only to cut the text. So a statement of a text declares
the same wherever the text stands in another one.
-/

namespace WebShader.Token

open List

def shift (distance : Nat) (token : Token) : Token :=
  { token with start := token.start + distance }

theorem stop_shift (dist : Nat) (token : Token) :
    (shift dist token).stop = token.stop + dist :=
  Nat.add_right_comm ..

theorem place_shift (offset dist : Nat) (pieces : List Lexeme) :
    place (offset + dist) pieces = (place offset pieces).map (shift dist) := by
  induction pieces generalizing offset with
  | nil => rfl
  | cons piece rest ih =>
    rw [place, place, Nat.add_right_comm, ih]
    rfl

theorem render_shift (dist : Nat) (tokens : List Token) :
    render (tokens.map (shift dist)) = render tokens := by
  rw [render, map_map]
  rfl

theorem codeTokens_shift (dist : Nat) (tokens : List Token) :
    codeTokens (tokens.map (shift dist)) = (codeTokens tokens).map (shift dist) := by
  have moved (onLine : Bool) (index : Nat) :
      (codeFrom onLine index (tokens.map (shift dist))).map Placed.token =
        ((codeFrom onLine index tokens).map Placed.token).map (shift dist) := by
    induction tokens generalizing onLine index with
    | nil => rfl
    | cons token rest ih =>
      have line : onDirective onLine (shift dist token) = onDirective onLine token := rfl
      have trivia : (shift dist token).isTrivia = token.isTrivia := rfl
      grind [codeFrom]
  exact moved false 0

end WebShader.Token

namespace WebShader.Preamble

open List Token

variable {part stmt tokens : List Token} {sep : String} {equals token : Token}

section Moved

variable (dist : Nat)

theorem statementsFrom_shift (depth : Int) (part tokens : List Token) :
    statementsFrom depth (part.map (shift dist)) (tokens.map (shift dist)) =
      (statementsFrom depth part tokens).map (·.map (shift dist)) := by
  induction tokens generalizing depth part with
  | nil => rfl
  | cons token rest ih =>
    have same : depthAfter depth (shift dist token) = depthAfter depth token := rfl
    have separates : (shift dist token).isPunct ";" = token.isPunct ";" := rfl
    grind [statementsFrom, map_reverse]

theorem splitFrom_shift (sep : String) (depth : Int) (part tokens : List Token) :
    splitFrom sep depth (part.map (shift dist)) (tokens.map (shift dist)) =
      (splitFrom sep depth part tokens).map (·.map (shift dist)) := by
  induction tokens generalizing depth part with
  | nil => simp [splitFrom]
  | cons token rest ih =>
    have same : depthAfter depth (shift dist token) = depthAfter depth token := rfl
    have separates : (shift dist token).isPunct sep = token.isPunct sep := rfl
    grind [splitFrom, map_reverse]

theorem splitTopLevel_shift (sep : String) (tokens : List Token) :
    splitTopLevel sep (tokens.map (shift dist)) =
      (splitTopLevel sep tokens).map (·.map (shift dist)) := by
  have split := splitFrom_shift dist sep 0 [] tokens
  rw [map_nil] at split
  rw [splitTopLevel, split, filter_map, splitTopLevel]
  simp [Function.comp_def]

theorem splitClosing_shift (depth : Int) (tokens : List Token) :
    splitClosing depth (tokens.map (shift dist)) =
      ((splitClosing depth tokens).1.map (shift dist),
        (splitClosing depth tokens).2.map (shift dist)) := by
  induction tokens generalizing depth with
  | nil => rfl
  | cons token rest ih =>
    have same : depthAfter depth (shift dist token) = depthAfter depth token := rfl
    have closes : closesBracket (shift dist token) = closesBracket token := rfl
    grind [splitClosing]

theorem afterParenthesis_shift (depth : Int) (tokens : List Token) :
    afterParenthesis depth (tokens.map (shift dist)) =
      (afterParenthesis depth tokens).map (shift dist) := by
  induction tokens generalizing depth with
  | nil => rfl
  | cons token rest ih =>
    have opens : (shift dist token).isPunct "(" = token.isPunct "(" := rfl
    have closes : (shift dist token).isPunct ")" = token.isPunct ")" := rfl
    grind [afterParenthesis]

theorem opensParenthesis_shift (tokens : List Token) :
    (tokens.map (shift dist)).head?.any (·.isPunct "(") = tokens.head?.any (·.isPunct "(") := by
  rw [head?_map, Option.any_map]
  rfl

theorem splitQualifiers_shift (qualifiers : List String) (tokens : List Token) :
    splitQualifiers qualifiers (tokens.map (shift dist)) =
      (splitQualifiers qualifiers tokens).map fun parts =>
        (parts.1, parts.2.map (shift dist)) := by
  induction qualifiers, tokens using splitQualifiers.induct with
  | case1 qualifiers => simp [splitQualifiers]
  | case2 qualifiers token rest precision =>
    have text : (shift dist token).text = token.text := rfl
    rw [map_cons, splitQualifiers, splitQualifiers, text, if_pos precision, if_pos precision]
    rfl
  | case3 qualifiers token rest precision layout ih =>
    have text : (shift dist token).text = token.text := rfl
    rw [map_cons, splitQualifiers, splitQualifiers, text, opensParenthesis_shift, if_neg precision,
      if_neg precision, if_pos layout, if_pos layout, afterParenthesis_shift, ih]
  | case4 qualifiers token rest precision layout storage ih =>
    have text : (shift dist token).text = token.text := rfl
    rw [map_cons, splitQualifiers, splitQualifiers, text, opensParenthesis_shift, if_neg precision,
      if_neg precision, if_neg layout, if_neg layout, if_pos storage, if_pos storage,
      ih]
  | case5 qualifiers token rest precision layout storage =>
    have text : (shift dist token).text = token.text := rfl
    rw [map_cons, splitQualifiers, splitQualifiers, text, opensParenthesis_shift, if_neg precision,
      if_neg precision, if_neg layout, if_neg layout, if_neg storage, if_neg storage]
    rfl

theorem splitArray_shift (tokens : List Token) :
    splitArray (tokens.map (shift dist)) =
      ((splitArray tokens).1, (splitArray tokens).2.map (shift dist)) := by
  induction tokens using splitArray.induct with
  | case1 => simp [splitArray]
  | case2 token rest opens parts ih =>
    have punct : (shift dist token).isPunct "[" = token.isPunct "[" := rfl
    have inside : Token.render (shift dist token :: (splitClosing 1 rest).1.map (shift dist)) =
        Token.render (token :: (splitClosing 1 rest).1) := render_shift dist (token :: _)
    rw [map_cons, splitArray, splitArray, punct, if_pos opens, if_pos opens, splitClosing_shift]
    dsimp only
    rw [ih, inside]
  | case3 token rest other =>
    have punct : (shift dist token).isPunct "[" = token.isPunct "[" := rfl
    rw [map_cons, splitArray, splitArray, punct, if_neg other, if_neg other]
    rfl

theorem splitType?_shift (tokens : List Token) :
    splitType? (tokens.map (shift dist)) =
      (splitType? tokens).map fun parts => (parts.1, parts.2.map (shift dist)) := by
  match tokens with
  | [] => rfl
  | [token] => rfl
  | token :: next :: rest =>
    have ident : (shift dist token).isIdent = token.isIdent := rfl
    have punct : (shift dist next).isPunct "[" = next.isPunct "[" := rfl
    have inside : Token.render (shift dist next :: (splitClosing 1 rest).1.map (shift dist)) =
        Token.render (next :: (splitClosing 1 rest).1) := render_shift dist (next :: _)
    rw [map_cons, map_cons, splitType?, splitType?, ident, punct, splitClosing_shift]
    dsimp only
    rw [inside]
    split
    · rfl
    · split
      · rfl
      · rfl

end Moved

/-! Cuts of a text inside another one. -/

theorem slice_inside (front text back : String) {start stop : Nat} (bounded : stop ≤ text.length) :
    Text.slice (front ++ text ++ back) (start + front.length) (stop + front.length) =
      Text.slice text start stop := by
  rw [Text.slice, Text.slice, Nat.add_sub_add_right, String.append_assoc, String.toList_append,
    Nat.add_comm, ← drop_drop, ← String.length_toList, List.drop_left, String.toList_append]
  rw [← String.length_toList] at bounded
  rcases Nat.lt_or_ge text.toList.length start with past | inside
  · rw [Nat.sub_eq_zero_of_le (by omega), take_zero, take_zero]
  grind

/-! The parts of a statement. -/

theorem splitClosing_suffix (depth : Int) (tokens : List Token) :
    (splitClosing depth tokens).2 <:+ tokens := by
  induction tokens generalizing depth with
  | nil => exact suffix_refl _
  | cons token rest ih => grind [splitClosing]

theorem afterParenthesis_suffix (depth : Int) (tokens : List Token) :
    afterParenthesis depth tokens <:+ tokens := by
  induction tokens generalizing depth with
  | nil => exact suffix_refl _
  | cons token rest ih => grind [afterParenthesis]

theorem splitQualifiers_suffix {qualifiers : List String} {parts : List String × List Token}
    (split : splitQualifiers qualifiers tokens = some parts) : parts.2 <:+ tokens := by
  induction qualifiers, tokens using splitQualifiers.induct with
  | case1 qualifiers =>
    rw [splitQualifiers] at split
    cases split
    exact suffix_refl _
  | case2 qualifiers token rest precision =>
    rw [splitQualifiers, if_pos precision] at split
    cases split
  | case3 qualifiers token rest precision layout ih =>
    rw [splitQualifiers, if_neg precision, if_pos layout] at split
    exact ((ih split).trans (afterParenthesis_suffix 0 rest)).trans (suffix_cons _ _)
  | case4 qualifiers token rest precision layout storage ih =>
    rw [splitQualifiers, if_neg precision, if_neg layout, if_pos storage] at split
    exact (ih split).trans (suffix_cons _ _)
  | case5 qualifiers token rest precision layout storage =>
    rw [splitQualifiers, if_neg precision, if_neg layout, if_neg storage] at split
    cases split
    exact suffix_refl _

theorem splitArray_suffix (tokens : List Token) : (splitArray tokens).2 <:+ tokens := by
  induction tokens using splitArray.induct with
  | case1 => simp only [splitArray, suffix_refl]
  | case2 token rest opens parts ih =>
    rw [splitArray, if_pos opens]
    exact (ih.trans (splitClosing_suffix 1 rest)).trans (suffix_cons _ _)
  | case3 token rest other => simp only [splitArray, other, suffix_refl, Bool.false_eq_true, if_false]

theorem splitType?_suffix {parts : String × List Token} (split : splitType? tokens = some parts) :
    parts.2 <:+ tokens := by
  match tokens with
  | [] => cases split
  | [token] => cases split
  | token :: next :: rest => grind [splitType?, splitClosing_suffix, suffix_cons]

theorem mem_of_mem_splitFrom {depth : Int} {other : List Token}
    (mem : other ∈ splitFrom sep depth part tokens) (listed : token ∈ other) :
    token ∈ part ∨ token ∈ tokens := by
  induction tokens generalizing depth part with
  | nil =>
    obtain rfl := mem_singleton.mp mem
    exact .inl (mem_reverse.mp listed)
  | cons first rest ih =>
    rw [splitFrom] at mem
    split at mem
    · grind
    grind

theorem mem_of_mem_splitTopLevel (mem : part ∈ splitTopLevel sep tokens)
    (listed : token ∈ part) : token ∈ tokens := by
  rcases mem_of_mem_splitFrom (mem_filter.mp mem).1 listed with none | inTokens
  · cases none
  · exact inTokens

/-! Declarations. -/

/-- Tokens that end inside a text of this length. -/
def Inside (length : Nat) (tokens : List Token) : Prop :=
  ∀ token ∈ tokens, token.stop ≤ length

theorem mapM_map_congr {α β γ : Type} {read : β → Option γ} {other : α → Option γ} {move : α → β}
    {items : List α} (same : ∀ item ∈ items, read (move item) = other item) :
    (items.map move).mapM read = items.mapM other := by
  induction items with
  | nil => rfl
  | cons item rest ih => grind

theorem declarator?_unnamed {source : String} {rest : List Token} (unnamed : token.isIdent = false) :
    declarator? source (token :: rest) = none := by
  rw [declarator?, unnamed]
  rfl

section Declarator

variable {source array : String} {token : Token} {rest : List Token} (named : token.isIdent = true)

include named

theorem declarator?_bare (split : splitArray rest = (array, [])) :
    declarator? source (token :: rest) = some ⟨token.text, array, none⟩ := by
  rw [declarator?, named, split]
  rfl

theorem declarator?_empty (split : splitArray rest = (array, [equals])) :
    declarator? source (token :: rest) = none := by grind [declarator?]

theorem declarator?_valued {first : Token} {others : List Token}
    (split : splitArray rest = (array, equals :: first :: others)) :
    declarator? source (token :: rest) =
      if equals.isPunct "=" then some ⟨token.text, array, some (Text.trim (Text.slice source
        first.start ((first :: others).getLast (cons_ne_nil _ _)).stop))⟩
      else none := by
  rw [declarator?]
  grind

end Declarator

/-- A declaration in parts: qualifiers, a type, and declarators. -/
theorem declaration?_eq (source : String) (stmt : List Token) :
    declaration? source stmt = (splitQualifiers [] stmt).bind fun qualified =>
        if qualified.1.any Definition.interfaceQualifiers.contains then none
        else (splitType? qualified.2).bind fun typed =>
          if !(typed.2.head?.any Token.isIdent) then none
          else ((splitTopLevel "," typed.2.dropLast).mapM (declarator? source)).map fun declarators =>
            { isConst := qualified.1.contains "const", typeName := typed.1, declarators
              text := Text.slice source ((stmt.head?.map Token.start).getD 0)
                ((stmt.getLast?.map Token.stop).getD 0) } := by
  rw [declaration?]
  cases splitQualifiers [] stmt with
  | none => rfl
  | some qualified =>
    obtain ⟨qualifiers, rest⟩ := qualified
    simp only [Option.bind_some, Option.bind_eq_bind]
    split
    · rfl
    · cases splitType? rest with
      | none => rfl
      | some typed =>
        simp only [Option.bind_some]
        split
        · rfl
        · cases (splitTopLevel "," typed.2.dropLast).mapM (declarator? source) with
          | none => rfl
          | some decls => rfl

theorem declaration?_nil (source : String) : declaration? source [] = none := by
  rw [declaration?_eq, splitQualifiers]
  rfl

section Inside

variable (front text back : String)

theorem declarator?_inside (inside : Inside text.length tokens) :
    declarator? (front ++ text ++ back) (tokens.map (shift front.length)) =
      declarator? text tokens := by
  cases tokens with
  | nil => rfl
  | cons token rest =>
    have ident : (shift front.length token).isIdent = token.isIdent := rfl
    cases named : token.isIdent with
    | false =>
      rw [map_cons, declarator?_unnamed (ident.trans named), declarator?_unnamed named]
    | true =>
      have split := splitArray_shift front.length rest
      have suffix := splitArray_suffix rest
      cases parts : splitArray rest with
      | mk array left =>
        rw [parts] at split suffix
        match left with
        | [] =>
          rw [map_cons, declarator?_bare (ident.trans named) split, declarator?_bare named parts]
          rfl
        | [equals] => grind [declarator?_empty]
        | equals :: first :: others =>
          have bounded : ((first :: others).getLast (cons_ne_nil _ _)).stop ≤ text.length :=
            inside _ (mem_cons_of_mem _ (suffix.subset (mem_cons_of_mem _ (getLast_mem _))))
          have last : ((shift front.length first :: others.map (shift front.length)).getLast
              (cons_ne_nil _ _)).stop =
                ((first :: others).getLast (cons_ne_nil _ _)).stop + front.length := by
            rw [← stop_shift]
            exact congrArg Token.stop
              (getLast_map (f := shift front.length) (l := first :: others) (by simp))
          rw [map_cons, declarator?_valued (ident.trans named) split, last,
            declarator?_valued named parts]
          have start : (shift front.length first).start = first.start + front.length := rfl
          rw [start, slice_inside front text back bounded]
          rfl

theorem statementText_inside (inside : Inside text.length stmt) (present : stmt ≠ []) :
    Text.slice (front ++ text ++ back)
        (((stmt.map (shift front.length)).head?.map Token.start).getD 0)
        (((stmt.map (shift front.length)).getLast?.map Token.stop).getD 0) =
      Text.slice text ((stmt.head?.map Token.start).getD 0)
        ((stmt.getLast?.map Token.stop).getD 0) := by
  obtain ⟨first, others, rfl⟩ := exists_cons_of_ne_nil present
  have last := getLast?_eq_some_getLast (cons_ne_nil first others)
  have bounded := inside _ (getLast_mem (cons_ne_nil first others))
  rw [getLast?_map, last]
  simp only [Option.map_some, stop_shift]
  exact slice_inside front text back bounded

/-- A statement of a text declares the same where the text stands in another one. -/
theorem declaration?_inside (inside : Inside text.length stmt) :
    declaration? (front ++ text ++ back) (stmt.map (shift front.length)) =
      declaration? text stmt := by
  by_cases present : stmt = []
  · rw [present, map_nil, declaration?_nil, declaration?_nil]
  rw [declaration?_eq, declaration?_eq, splitQualifiers_shift, Option.bind_map,
    statementText_inside front text back inside present]
  cases qualified : splitQualifiers [] stmt with
  | none => rfl
  | some parts =>
    have suffix := splitQualifiers_suffix qualified
    simp only [Option.bind_some, Function.comp_apply, splitType?_shift, Option.bind_map]
    split
    · rfl
    · cases typed : splitType? parts.2 with
      | none => rfl
      | some rest =>
        have behind := (splitType?_suffix typed).trans suffix
        have named : (rest.2.map (shift front.length)).head?.any Token.isIdent =
            rest.2.head?.any Token.isIdent := by
          rw [head?_map, Option.any_map]
          rfl
        have decls : (splitTopLevel "," (rest.2.map (shift front.length)).dropLast).mapM
            (declarator? (front ++ text ++ back)) =
              (splitTopLevel "," rest.2.dropLast).mapM (declarator? text) := by
          rw [← map_dropLast, splitTopLevel_shift]
          refine mapM_map_congr fun part mem => declarator?_inside front text back ?_
          exact fun token listed => inside token (behind.subset (dropLast_subset _
            (mem_of_mem_splitTopLevel mem listed)))
        grind

end Inside

end WebShader.Preamble
