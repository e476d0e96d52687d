import WebShader.Proofs.Definition.Statements

/-!
Contract: declarations read from their code.

Owns: the code of declarators and of declarations, and what is read from it.
-/

namespace WebShader.Token

open List

variable {after onLine : Bool} {depth : Int} {pieces : List Lexeme}

/-! Separators outside all brackets. -/

/-- Whether a separator stands outside all brackets, where the first lexeme stands at a depth. -/
def holdsAt (separator : Lexeme) (depth : Int) : List Lexeme → Bool
  | [] => false
  | piece :: rest =>
    depthOf depth piece == 0 && piece == separator || holdsAt separator (depthOf depth piece) rest

theorem holdsAt_append (sep : Lexeme) (depth : Int) (pieces others : List Lexeme) :
    holdsAt sep depth (pieces ++ others) =
      (holdsAt sep depth pieces || holdsAt sep (pieces.foldl depthOf depth) others) := by
  induction pieces generalizing depth with
  | nil => rfl
  | cons piece rest ih =>
    rw [cons_append, holdsAt, holdsAt, ih, foldl_cons, Bool.or_assoc]

theorem holdsAt_word (sep : Char) (depth : Int) (name : String) (rest : List Lexeme) :
    holdsAt (punct sep) depth (word name :: rest) = holdsAt (punct sep) depth rest := by
  have other : (word name == punct sep) = false :=
    beq_eq_false_iff_ne.mpr fun same => by cases congrArg Lexeme.kind same
  rw [holdsAt, depthOf_word, other, Bool.and_false, Bool.false_or]

theorem depthOf_pair {opener closer : Lexeme} (pair : (opener, closer) ∈ bracketPairs) (depth : Int) :
    depthOf depth opener = depth + 1 ∧ depthOf (depth + 1) closer = depth := by
  have brackets : opensGroup opener ∧ opensGroup closer = false ∧
      closesGroup closer := by
    rcases mem_bracketPairs.mp pair with same | same | same <;> cases same <;> decide
  simp_all [depthOf]

/-- Nested lexemes leave the depth as it was. -/
theorem Nested.depth_all (nested : Nested onLine pieces after) (depth : Int) :
    pieces.foldl depthOf depth = depth := by
  induction nested generalizing depth with
  | nil onLine => rfl
  | plain notOpener notCloser _ ih =>
    rw [foldl_cons, depthOf, notOpener, notCloser]
    exact ih depth
  | group pair _ _ innerHypothesis ih =>
    obtain ⟨opened, closed⟩ := depthOf_pair pair depth
    grind

/-- Whether the depth stays above zero from a depth on. -/
def staysInside (depth : Int) : List Lexeme → Bool
  | [] => true
  | piece :: rest => 0 < depthOf depth piece && staysInside (depthOf depth piece) rest

theorem staysInside_append (depth : Int) (pieces others : List Lexeme) :
    staysInside depth (pieces ++ others) =
      (staysInside depth pieces && staysInside (pieces.foldl depthOf depth) others) := by
  induction pieces generalizing depth with
  | nil => rfl
  | cons piece rest ih =>
    rw [cons_append, staysInside, staysInside, ih, foldl_cons, Bool.and_assoc]

theorem Nested.staysInside (nested : Nested onLine pieces after) (inside : 0 < depth) :
    staysInside depth pieces := by
  induction nested generalizing depth with
  | nil onLine => rfl
  | plain notOpener notCloser _ ih => simp_all [Token.staysInside, depthOf]
  | group pair inner _ innerHypothesis ih =>
    obtain ⟨opened, closed⟩ := depthOf_pair pair depth
    have deeper : 0 < depth + 1 := by omega
    rw [Token.staysInside, opened, staysInside_append, innerHypothesis deeper, inner.depth_all,
      Token.staysInside, closed, ih inside, decide_eq_true inside,
      decide_eq_true deeper]
    rfl

/-- Nothing inside brackets stands outside all brackets. -/
theorem holdsAt_inside (inside : staysInside depth pieces) (sep : Lexeme) :
    holdsAt sep depth pieces = false := by
  induction pieces generalizing depth with
  | nil => rfl
  | cons piece rest ih =>
    rw [staysInside, Bool.and_eq_true] at inside
    grind [holdsAt]

/-! The code of declarators. -/

/-- Array sizes: groups in square brackets. -/
inductive ArrayGroups : List Lexeme → Prop where
  | nil : ArrayGroups []
  | group {inside rest : List Lexeme} (nested : Nested false inside false)
      (others : ArrayGroups rest) : ArrayGroups (punct '[' :: (inside ++ punct ']' :: rest))

/-- Nested code without a comma or a semicolon outside its brackets. -/
structure OnePart (code : List Lexeme) : Prop where
  nested : Nested false code false
  noComma : holdsAt (punct ',') 0 code = false
  noSemicolon : holdsAt (punct ';') 0 code = false

theorem square_mem : (punct '[', punct ']') ∈ bracketPairs := by
  decide

theorem ArrayGroups.nested (groups : ArrayGroups pieces) : Nested false pieces false := by
  induction groups with
  | nil => exact .nil false
  | group inner _ ih => exact .group square_mem inner ih

theorem ArrayGroups.holdsAt (groups : ArrayGroups pieces) {sep : Lexeme}
    (other : sep ≠ punct ']') : holdsAt sep 0 pieces = false := by
  induction groups with
  | nil => rfl
  | group inner _ ih =>
    obtain ⟨opened, closed⟩ := depthOf_pair square_mem 0
    rw [Token.holdsAt, opened, holdsAt_append, holdsAt_inside (inner.staysInside (by decide)) sep,
      inner.depth_all, Token.holdsAt, closed, ih,
      beq_eq_false_iff_ne.mpr other.symm]
    rfl

theorem ArrayGroups.onePart (groups : ArrayGroups pieces) : OnePart pieces :=
  ⟨groups.nested, groups.holdsAt (by decide), groups.holdsAt (by decide)⟩

theorem OnePart.append {code others : List Lexeme} (first : OnePart code) (second : OnePart others) :
    OnePart (code ++ others) where
  nested := first.nested.append second.nested
  noComma := by rw [holdsAt_append, first.noComma, first.nested.depth_all, second.noComma]; rfl
  noSemicolon := by
    rw [holdsAt_append, first.noSemicolon, first.nested.depth_all, second.noSemicolon]; rfl

theorem onePart_word (name : String) : OnePart [word name] where
  nested := .plain (by simp [opensGroup, bracketPairs, word, punct])
    (by simp [closesGroup, bracketPairs, word, punct]) (.nil _)
  noComma := by rfl
  noSemicolon := by rfl

theorem onePart_equals : OnePart [punct '='] where
  nested := nested_plain (by decide) false
  noComma := by decide
  noSemicolon := by decide

end WebShader.Token

namespace WebShader.Preamble

open List Token

variable {depth : Int} {lead tokens : List Token} {semicolon : Token}

/-- A declared name with its array sizes and the code of its initial value, which is empty where
there is none. -/
structure DeclaratorCode where
  name : String
  array : List Lexeme
  value : List Lexeme
  groups : ArrayGroups array
  onePart : OnePart value

namespace DeclaratorCode

def initial (declarator : DeclaratorCode) : List Lexeme :=
  if declarator.value = [] then [] else punct '=' :: declarator.value

def code (declarator : DeclaratorCode) : List Lexeme :=
  word declarator.name :: (declarator.array ++ declarator.initial)

theorem onePart_initial (decl : DeclaratorCode) : OnePart decl.initial := by
  rw [initial]
  split
  · exact ArrayGroups.nil.onePart
  · exact onePart_equals.append decl.onePart

theorem onePart_code (decl : DeclaratorCode) : OnePart decl.code :=
  (onePart_word decl.name).append (decl.groups.onePart.append decl.onePart_initial)

end DeclaratorCode

variable {isConst : Bool} {decls : List DeclaratorCode} {body stmt : List Token}
  {typeName : String} {token : Token}

def joinCode : List DeclaratorCode → List Lexeme
  | [] => []
  | [declarator] => declarator.code
  | declarator :: second :: rest => declarator.code ++ punct ',' :: joinCode (second :: rest)

/-! Splitting. -/

theorem splitFrom_onePart (free : holdsAt (punct ',') depth (tokens.map lexeme) = false)
    (part others : List Token) :
    splitFrom "," depth part (tokens ++ others) =
      splitFrom "," (tokens.foldl depthAfter depth) (tokens.reverse ++ part) others := by
  induction tokens generalizing depth part with
  | nil => rfl
  | cons token rest ih =>
    have mark : token.isPunct "," = (lexeme token == punct ',') := isPunct_lexeme token ","
    simp_all [holdsAt, depthAfter_lexeme, splitFrom]

theorem statementsFrom_ended (free : holdsAt (punct ';') depth (tokens.map lexeme) = false)
    (part others : List Token) :
    statementsFrom depth part (tokens ++ others) =
      statementsFrom (tokens.foldl depthAfter depth) (tokens.reverse ++ part) others := by
  induction tokens generalizing depth part with
  | nil => rfl
  | cons token rest ih =>
    have mark : token.isPunct ";" = (lexeme token == punct ';') := isPunct_lexeme token ";"
    simp_all [holdsAt, depthAfter_lexeme, statementsFrom]

theorem foldl_depthAfter_onePart (onePart : OnePart (tokens.map lexeme)) :
    tokens.foldl depthAfter 0 = 0 := by
  rw [foldl_depthAfter, onePart.nested.depth_all]

theorem splitFrom_join (present : decls ≠ [])
    (shape : tokens.map lexeme = joinCode decls) :
    (splitFrom "," 0 [] tokens).map (List.map lexeme) = decls.map DeclaratorCode.code := by
  induction decls generalizing tokens with
  | nil => exact absurd rfl present
  | cons decl rest ih =>
    cases rest with
    | nil =>
      have onePart : OnePart (tokens.map lexeme) := by
        rw [shape]
        exact decl.onePart_code
      rw [← append_nil tokens, splitFrom_onePart onePart.noComma, splitFrom,
        append_nil, reverse_reverse, map_singleton, shape]
      rfl
    | cons second more =>
      obtain ⟨first, behind, rfl, firstShape, behindShape⟩ := exists_lexeme_append shape
      obtain ⟨comma, later, rfl, isComma, laterShape⟩ := exists_lexeme_cons behindShape
      have onePart : OnePart (first.map lexeme) := by
        rw [firstShape]
        exact decl.onePart_code
      have mark : comma.isPunct "," := by
        rw [isPunct_lexeme, isComma]
        rfl
      have level : depthAfter 0 comma = 0 := by
        rw [depthAfter_lexeme, isComma]
        rfl
      rw [splitFrom_onePart onePart.noComma, foldl_depthAfter_onePart onePart, splitFrom, append_nil]
      grind

/-- Declarators with commas between them are split at the commas. -/
theorem splitTopLevel_join (present : decls ≠ [])
    (shape : tokens.map lexeme = joinCode decls) :
    (splitTopLevel "," tokens).map (List.map lexeme) = decls.map DeclaratorCode.code := by
  have parts := splitFrom_join present shape
  rw [splitTopLevel, filter_eq_self.mpr, parts]
  intro part mem
  have listed := mem_map_of_mem (f := List.map lexeme) mem
  rw [parts] at listed
  obtain ⟨decl, -, same⟩ := mem_map.mp listed
  cases part with
  | nil => cases same
  | cons token rest => rfl

/-! Declarators. -/

theorem splitClosing_inside (inside : staysInside depth (tokens.map lexeme)) (others : List Token) :
    splitClosing depth (tokens ++ others) =
      (tokens ++ (splitClosing (tokens.foldl depthAfter depth) others).1,
        (splitClosing (tokens.foldl depthAfter depth) others).2) := by
  induction tokens generalizing depth with
  | nil => rfl
  | cons token rest ih =>
    rw [map_cons, staysInside, Bool.and_eq_true, decide_eq_true_eq, ← depthAfter_lexeme] at inside
    have outside : (depthAfter depth token == 0) = false := beq_eq_false_iff_ne.mpr (by omega)
    rw [cons_append, splitClosing, outside, Bool.and_false, ih inside.2]
    rfl

/-- Array sizes are split from what follows them. -/
theorem splitArray_groups (groups : ArrayGroups (tokens.map lexeme)) {others : List Token}
    (ends : others.head?.any (·.isPunct "[") = false) :
    splitArray (tokens ++ others) = (Token.render tokens, others) := by
  generalize shape : tokens.map lexeme = pieces at groups
  induction groups generalizing tokens with
  | nil =>
    rw [map_eq_nil_iff] at shape
    subst shape
    cases others with
    | nil => simp [splitArray, Token.render]
    | cons token rest =>
      rw [nil_append, splitArray, if_neg (by simpa using ends)]
      rfl
  | @group inside more nested _ ih =>
    obtain ⟨opener, behind, rfl, opens, behindShape⟩ := exists_lexeme_cons shape
    obtain ⟨first, later, rfl, firstShape, laterShape⟩ := exists_lexeme_append behindShape
    obtain ⟨closer, rest, rfl, closes, restShape⟩ := exists_lexeme_cons laterShape
    have isOpener : opener.isPunct "[" := by
      rw [isPunct_lexeme, opens]
      rfl
    have isCloser : closesBracket closer := by
      rw [closesBracket, isPunctIn_lexeme, closes]
      rfl
    have level : depthAfter 1 closer = 0 := by
      rw [depthAfter_lexeme, closes]
      rfl
    have depth : first.foldl depthAfter 1 = 1 := by
      rw [foldl_depthAfter, firstShape, nested.depth_all]
    have stays : staysInside 1 (first.map lexeme) := by
      rw [firstShape]
      exact nested.staysInside (by decide)
    have closing : splitClosing 1 (closer :: (rest ++ others)) = ([closer], rest ++ others) := by
      rw [splitClosing, isCloser, level]
      rfl
    rw [cons_append, append_assoc, cons_append, splitArray, if_pos isOpener,
      splitClosing_inside stays, depth, closing]
    simp only
    rw [ih restShape, ← render_append]
    simp

/-- The text from the first of some tokens to the last one, without blanks around it. -/
def spanText? (source : String) (tokens : List Token) : Option String :=
  tokens.head?.bind fun first => tokens.getLast?.map fun last =>
    Text.trim (Text.slice source first.start last.stop)

theorem spanText?_eq {start stop : Nat} (first : tokens.head?.map Token.start = some start)
    (last : tokens.getLast?.map Token.stop = some stop) (source : String) :
    spanText? source tokens = some (Text.trim (Text.slice source start stop)) := by
  obtain ⟨front, head, rfl⟩ := Option.map_eq_some_iff.mp first
  obtain ⟨back, tail, rfl⟩ := Option.map_eq_some_iff.mp last
  rw [spanText?, head, tail]
  rfl

theorem render_lexeme (tokens : List Token) :
    Token.render tokens = String.ofList ((tokens.map lexeme).flatMap Lexeme.text) := by
  induction tokens with
  | nil => rfl
  | cons token rest ih =>
    rw [render_cons, ih, map_cons, flatMap_cons, String.ofList_append, lexeme, String.ofList_toList]

/-- A declarator is read from its code. -/
theorem declarator?_code {decl : DeclaratorCode} (shape : tokens.map lexeme = decl.code)
    (source : String) :
    declarator? source tokens = some ⟨decl.name, String.ofList (decl.array.flatMap Lexeme.text),
        spanText? source (tokens.drop (decl.array.length + 2))⟩ := by
  obtain ⟨token, behind, rfl, isName, behindShape⟩ := exists_lexeme_cons shape
  obtain ⟨array, initial, rfl, arrayShape, initialShape⟩ := exists_lexeme_append behindShape
  obtain ⟨kind, text⟩ := lexeme_eq isName
  have named : token.isIdent := by
    rw [isIdent, kind]
    rfl
  have groups : ArrayGroups (array.map lexeme) := by
    rw [arrayShape]
    exact decl.groups
  have length : decl.array.length = array.length := by
    rw [← arrayShape, length_map]
  have arrayText := render_lexeme array
  rw [arrayShape] at arrayText
  rw [DeclaratorCode.initial] at initialShape
  split at initialShape
  · rw [map_eq_nil_iff] at initialShape
    subst initialShape
    rw [declarator?_bare named (splitArray_groups groups rfl), text, arrayText, length]
    simp [spanText?]
  next present =>
    obtain ⟨equals, value, rfl, isEquals, valueShape⟩ := exists_lexeme_cons initialShape
    have sign : equals.isPunct "=" := by
      rw [isPunct_lexeme, isEquals]
      rfl
    have notArray : equals.isPunct "[" = false := by
      rw [isPunct_lexeme, isEquals]
      rfl
    cases value with
    | nil => exact absurd valueShape.symm present
    | cons first others =>
      have ends : (equals :: first :: others).head?.any (·.isPunct "[") = false := notArray
      have last := getLast?_eq_some_getLast (cons_ne_nil first others)
      rw [declarator?_valued named (splitArray_groups groups ends)]
      simp_all [spanText?]

/-! Declarations. -/

/-- A name that can be the type of a declaration. -/
structure PlainType (name : String) : Prop where
  named : isName name.toList = true
  unqualified : name ∉ Definition.storageQualifiers
  other : name ≠ "precision" ∧ name ≠ "layout" ∧ name ≠ "struct"

def leadCode (isConst : Bool) : List Lexeme :=
  if isConst then [word "const"] else []

def declarationCode (isConst : Bool) (typeName : String) (declarators : List DeclaratorCode) :
    List Lexeme :=
  leadCode isConst ++ word typeName :: (joinCode declarators ++ [punct ';'])

theorem splitQualifiers_type (plain : PlainType typeName) (isType : lexeme token = word typeName)
    (qualifiers : List String) (rest : List Token) :
    splitQualifiers qualifiers (token :: rest) = some (qualifiers, token :: rest) := by
  obtain ⟨-, text⟩ := lexeme_eq isType
  obtain ⟨notPrecision, notLayout, -⟩ := plain.other
  have unqualified : Definition.storageQualifiers.contains typeName = false := by
    simpa using plain.unqualified
  simp_all [splitQualifiers]

theorem splitQualifiers_lead (shape : lead.map lexeme = leadCode isConst)
    (plain : PlainType typeName) (isType : lexeme token = word typeName) (rest : List Token) :
    splitQualifiers [] (lead ++ token :: rest) =
      some (if isConst then ["const"] else [], token :: rest) := by
  cases isConst with
  | false =>
    obtain rfl := map_eq_nil_iff.mp shape
    exact splitQualifiers_type plain isType [] rest
  | true =>
    obtain ⟨const, others, rfl, isConst, none⟩ := exists_lexeme_cons shape
    obtain rfl := map_eq_nil_iff.mp none
    obtain ⟨-, text⟩ := lexeme_eq isConst
    have qualifier : const.text = "const" := text
    rw [singleton_append, splitQualifiers, qualifier]
    exact splitQualifiers_type plain isType ["const"] rest

/-- A declaration is read from its type and its declarators. -/
theorem declaration?_parts (shape : lead.map lexeme = leadCode isConst) (plain : PlainType typeName)
    (isType : lexeme token = word typeName) (named : body.head?.any Token.isIdent)
    (source : String) :
    declaration? source (lead ++ token :: (body ++ [semicolon])) =
      ((splitTopLevel "," body).mapM (declarator? source)).map fun decls =>
        { isConst, typeName, declarators := decls
          text := Text.slice source
            (((lead ++ token :: (body ++ [semicolon])).head?.map Token.start).getD 0)
            (((lead ++ token :: (body ++ [semicolon])).getLast?.map Token.stop).getD 0) } := by
  obtain ⟨kind, text⟩ := lexeme_eq isType
  rw [String.ofList_toList] at text
  cases body with
  | nil => cases named
  | cons first others =>
    have isIdent : first.isIdent := named
    have notArray : first.isPunct "[" = false := by
      rw [Token.isIdent, beq_iff_eq] at isIdent
      rw [isPunct, isIdent]
      rfl
    have typed : splitType? (token :: (first :: others ++ [semicolon])) =
        some (typeName, first :: others ++ [semicolon]) := by
      rw [cons_append, splitType?, Token.isIdent, kind, notArray, text]
      rfl
    have allowed : (if isConst then ["const"] else []).any
        Definition.interfaceQualifiers.contains = false := by
      cases isConst <;> decide
    rw [declaration?_eq, splitQualifiers_lead shape plain isType]
    grind

theorem nested_comma : Nested false [punct ','] false :=
  nested_plain (by decide) false

theorem joinCode_ended (decls : List DeclaratorCode) :
    Nested false (joinCode decls) false ∧
      holdsAt (punct ';') 0 (joinCode decls) = false := by
  induction decls with
  | nil => exact ⟨.nil false, rfl⟩
  | cons decl rest ih =>
    have onePart := decl.onePart_code
    cases rest with
    | nil => exact ⟨onePart.nested, onePart.noSemicolon⟩
    | cons second more =>
      obtain ⟨nested, ended⟩ := ih
      refine ⟨onePart.nested.append (nested_comma.append nested), ?_⟩
      rw [joinCode, holdsAt_append, onePart.noSemicolon, onePart.nested.depth_all,
        ← singleton_append, holdsAt_append, nested_comma.depth_all, ended]
      rfl

theorem leadCode_ended (isConst : Bool) :
    Nested false (leadCode isConst) false ∧ holdsAt (punct ';') 0 (leadCode isConst) = false := by
  cases isConst with
  | false => exact ⟨.nil false, rfl⟩
  | true => exact ⟨(onePart_word "const").nested, (onePart_word "const").noSemicolon⟩

theorem declarationCode_nested (isConst : Bool) (typeName : String)
    (decls : List DeclaratorCode) :
    Nested false (declarationCode isConst typeName decls) false := by
  have semicolon : Nested false [punct ';'] false := nested_plain (by decide) false
  exact (leadCode_ended isConst).1.append ((onePart_word typeName).nested.append
    ((joinCode_ended decls).1.append semicolon))

/-- The code of a declaration is one statement. -/
theorem statementsFrom_declaration
    (shape : stmt.map lexeme = declarationCode isConst typeName decls)
    (others : List Token) :
    statementsFrom 0 [] (stmt ++ others) = stmt :: statementsFrom 0 [] others := by
  have whole : declarationCode isConst typeName decls =
      (leadCode isConst ++ ([word typeName] ++ joinCode decls)) ++ [punct ';'] := by
    simp [declarationCode]
  rw [whole] at shape
  obtain ⟨front, behind, rfl, frontShape, behindShape⟩ := exists_lexeme_append shape
  obtain ⟨semicolon, rest, rfl, isSemicolon, none⟩ := exists_lexeme_cons behindShape
  obtain rfl := map_eq_nil_iff.mp none
  obtain ⟨leadNested, leadEnded⟩ := leadCode_ended isConst
  obtain ⟨joinNested, joinEnded⟩ := joinCode_ended decls
  have free : holdsAt (punct ';') 0 (front.map lexeme) = false := by
    rw [frontShape, holdsAt_append, leadEnded, leadNested.depth_all, singleton_append,
      holdsAt_word, joinEnded]
    rfl
  have level : front.foldl depthAfter 0 = 0 := by
    rw [foldl_depthAfter, frontShape,
      (leadNested.append ((onePart_word typeName).nested.append joinNested)).depth_all]
  have mark : semicolon.isPunct ";" := by
    rw [isPunct_lexeme, isSemicolon]
    rfl
  have still : depthAfter 0 semicolon = 0 := by
    rw [depthAfter_lexeme, isSemicolon]
    rfl
  rw [append_assoc, statementsFrom_ended free, level, singleton_append, statementsFrom, still, mark]
  simp

theorem mapM_declarators {parts : List (List Token)}
    (shape : parts.map (List.map lexeme) = decls.map DeclaratorCode.code) (source : String) :
    ∃ read, parts.mapM (declarator? source) = some read ∧
      read.map Declarator.name = decls.map DeclaratorCode.name := by
  induction decls generalizing parts with
  | nil => simp_all
  | cons decl rest ih =>
    obtain ⟨part, others, rfl, partShape, othersShape⟩ := map_eq_cons_iff.mp shape
    obtain ⟨read, readAll, names⟩ := ih othersShape
    have here := declarator?_code partShape source
    simp_all

/-- The parts of a declaration's tokens. -/
theorem exists_declaration_parts
    (shape : stmt.map lexeme = declarationCode isConst typeName decls) :
    ∃ lead token body semicolon, stmt = lead ++ token :: (body ++ [semicolon]) ∧
      lead.map lexeme = leadCode isConst ∧ lexeme token = word typeName ∧
      body.map lexeme = joinCode decls := by
  obtain ⟨lead, behind, rfl, leadShape, behindShape⟩ := exists_lexeme_append shape
  obtain ⟨token, rest, rfl, isType, restShape⟩ := exists_lexeme_cons behindShape
  obtain ⟨body, last, rfl, bodyShape, lastShape⟩ := exists_lexeme_append restShape
  obtain ⟨semicolon, more, rfl, -, none⟩ := exists_lexeme_cons lastShape
  obtain rfl := map_eq_nil_iff.mp none
  grind

theorem head_joinCode (present : decls ≠ []) (shape : body.map lexeme = joinCode decls) :
    body.head?.any Token.isIdent := by
  have first : ∃ name rest, joinCode decls = word name :: rest := by
    match decls with
    | [] => exact absurd rfl present
    | [decl] => exact ⟨_, _, rfl⟩
    | decl :: second :: rest => exact ⟨_, _, rfl⟩
  obtain ⟨name, rest, opens⟩ := first
  obtain ⟨token, others, rfl, isName, -⟩ := exists_lexeme_cons (shape.trans opens)
  obtain ⟨kind, -⟩ := lexeme_eq isName
  rw [head?_cons, Option.any_some, isIdent, kind]
  rfl

/-- A declaration is read from its code, with the names of its declarators. -/
theorem declaration?_code (plain : PlainType typeName) (present : decls ≠ [])
    (shape : stmt.map lexeme = declarationCode isConst typeName decls) (source : String) :
    ∃ read, read.map Declarator.name = decls.map DeclaratorCode.name ∧
      declaration? source stmt = some
        { isConst, typeName, declarators := read
          text := Text.slice source ((stmt.head?.map Token.start).getD 0)
            ((stmt.getLast?.map Token.stop).getD 0) } := by
  obtain ⟨lead, token, body, semicolon, rfl, leadShape, isType, bodyShape⟩ :=
    exists_declaration_parts shape
  obtain ⟨read, readAll, names⟩ := mapM_declarators (splitTopLevel_join present bodyShape) source
  grind [declaration?_parts, head_joinCode]

/-- A declaration of one name is read with its array sizes and its initial value. -/
theorem declaration?_single (plain : PlainType typeName) {decl : DeclaratorCode}
    (leadShape : lead.map lexeme = leadCode isConst) (isType : lexeme token = word typeName)
    (bodyShape : body.map lexeme = decl.code) (source : String) :
    ∃ text, declaration? source (lead ++ token :: (body ++ [semicolon])) = some
      { isConst, typeName, text
        declarators := [⟨decl.name, String.ofList (decl.array.flatMap Lexeme.text),
          spanText? source (body.drop (decl.array.length + 2))⟩] } := by
  have present : [decl] ≠ [] := cons_ne_nil _ _
  have parts : splitTopLevel "," body = [body] := by
    have onePart : OnePart (body.map lexeme) := by
      rw [bodyShape]
      exact decl.onePart_code
    have whole := splitFrom_onePart onePart.noComma [] []
    rw [append_nil, append_nil, splitFrom, reverse_reverse] at whole
    rw [splitTopLevel, whole]
    cases body with
    | nil => cases bodyShape
    | cons first rest => rfl
  rw [declaration?_parts leadShape plain isType (head_joinCode present bodyShape), parts,
    mapM_cons, declarator?_code bodyShape]
  exact ⟨_, rfl⟩

end WebShader.Preamble
