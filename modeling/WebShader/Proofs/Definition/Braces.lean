import Mathlib.Data.List.Infix
import Mathlib.Data.List.TakeWhile
import WebShader.Proofs.Token.Nesting

/-!
Contract: definitions lie in their source one behind the other, each with its
body between braces.

Owns: what closing a bracket finds, what one step of the scan gives and leaves,
and that the scan ends well where directive lines close only what they open.

Does not own: which code is a definition; that is `Scanning`.

Brackets are closed over all tokens, and the scan goes on in code. The two agree
where the closing bracket is code. A directive line that closes only what it
opens never brings the depth back to where code left it.
-/

namespace WebShader.Token

open List

/-! Tokens of a source. -/

theorem Covers.cut {start stop : Nat} {left right : List Token}
    (covers : Covers start (left ++ right) stop) :
    Covers (start + (render left).length) right stop := by
  induction left generalizing start with
  | nil => exact covers
  | cons token rest ih =>
    obtain ⟨placed, later⟩ := covers
    have cut := ih later
    simp_all [Token.stop, render_cons, Nat.add_assoc]

theorem Covers.ordered {start stop : Nat} {tokens : List Token} (covers : Covers start tokens stop) :
    start ≤ stop ∧ tokens.Pairwise (fun first second => first.stop ≤ second.start) ∧
      ∀ token ∈ tokens, start ≤ token.start ∧ token.stop ≤ stop := by
  induction tokens generalizing start with
  | nil => exact ⟨Nat.le_of_eq covers, .nil, fun _ absurdity => by cases absurdity⟩
  | cons token rest ih =>
    obtain ⟨rfl, later⟩ := covers
    obtain ⟨ends, ordered, within⟩ := ih later
    have long : token.start ≤ token.stop := Nat.le_add_right _ _
    refine ⟨by omega, .cons (fun other mem => (within other mem).1) ordered, ?_⟩
    grind

section Lexed

variable {source : String} {token : Token}

theorem ordered_lex (source : String) :
    (lex source).Pairwise fun first second => first.stop ≤ second.start :=
  (covers_lex source).ordered.2.1

theorem start_lt_stop (mem : token ∈ lex source) : token.start < token.stop := by
  have letters := (splits_lexemes source.toList).ne_nil (mem_lex mem)
  have positive : 0 < token.text.length := by
    exact length_pos_iff.mpr letters
  rw [Token.stop]
  omega

/-- A token that is spelled as a bracket is one. -/
theorem lexeme_of_text {c : Char} (mem : token ∈ lex source) (spelled : token.text = String.ofList [c])
    (alone : frontToken [c] = (.punct, 1)) : lexeme token = punct c := by
  have single := (splits_lexemes source.toList).singleton (mem_lex mem)
  have text : (lexeme token).text = [c] ++ [] := by rw [lexeme, spelled, String.toList_ofList]; rfl
  have front : Splits ([c] ++ []) [punct c] := .cons alone .nil
  rw [text] at single
  exact head_eq_of_cons_eq (single.lexemes_eq.symm.trans front.lexemes_eq)

end Lexed

/-! Code of tokens. -/

section Code

variable {onLine : Bool} {index : Nat} {tokens : List Token} {entry : Placed}

theorem ascending_codeFrom :
    (codeFrom onLine index tokens).Pairwise fun first second => first.position < second.position := by
  induction tokens generalizing onLine index with
  | nil => exact .nil
  | cons token rest ih =>
    rw [codeFrom]
    split
    · exact ih
    · refine .cons (fun other mem => ?_) ih
      have := position_of_mem_codeFrom mem
      dsimp only
      omega

theorem line_of_code {token : Token} (outside : onDirective onLine token = false)
    (solid : token.isTrivia = false) : onLine = false := by
  unfold onDirective at outside
  split at outside
  next kind =>
    rw [isTrivia, kind] at solid
    cases solid
  · cases outside
  · exact outside

theorem exists_of_mem_codeFrom (mem : entry ∈ codeFrom onLine index tokens) :
    ∃ before after, tokens = before ++ entry.token :: after ∧ entry.position = index + before.length ∧
      before.foldl onDirective onLine = false := by
  induction tokens generalizing onLine index with
  | nil => cases mem
  | cons token rest ih =>
    rw [codeFrom] at mem
    split at mem
    · grind
    next outside =>
      rcases mem_cons.mp mem with rfl | later
      · refine ⟨[], rest, rfl, rfl, ?_⟩
        simp only [Bool.or_eq_true, not_or, Bool.not_eq_true] at outside
        exact line_of_code outside.1 outside.2
      grind

end Code

/-! Directive lines. -/

/-- Lexemes from the head of a directive on, within its line. -/
def onOneDirective (line : List Lexeme) : Bool :=
  line.head?.any (·.kind == .directive) && line.all (·.kind != .newline)

/-- Directive lines close no bracket that they did not open: from the head of a directive on, its
line never has more closing brackets of a kind than opening ones. -/
def LinesCloseOwn (pieces : List Lexeme) : Prop :=
  ∀ line, line <:+: pieces → onOneDirective line = true →
    ∀ pair ∈ bracketPairs, line.count pair.2 ≤ line.count pair.1

instance (pieces : List Lexeme) : Decidable (LinesCloseOwn pieces) :=
  decidable_of_iff (∀ rest ∈ pieces.tails, ∀ line ∈ rest.inits, onOneDirective line = true →
    ∀ pair ∈ bracketPairs, line.count pair.2 ≤ line.count pair.1) <| by
    constructor
    · intro all line part
      obtain ⟨rest, front, back⟩ := List.infix_iff_prefix_suffix.mp part
      exact all rest ((mem_tails ..).mpr back) line ((mem_inits ..).mpr front)
    · intro own rest back line front
      exact own line (((mem_inits ..).mp front).isInfix.trans ((mem_tails ..).mp back).isInfix)

theorem onOneDirective_concat {line : List Lexeme} {last : Lexeme}
    (isLine : onOneDirective line) (goesOn : last.kind ≠ .newline) :
    onOneDirective (line ++ [last]) := by
  rw [onOneDirective, Bool.and_eq_true] at isLine
  cases line with
  | nil => cases isLine.1
  | cons first others => simp_all [onOneDirective]

theorem exists_directive {pieces : List Lexeme} (onLine : pieces.foldl directiveAfter false = true) :
    ∃ front line, pieces = front ++ line ∧ onOneDirective line := by
  induction pieces using List.reverseRecOn with
  | nil => cases onLine
  | append_singleton rest last ih =>
    rw [foldl_append, foldl_cons, directiveAfter] at onLine
    split at onLine
    · cases onLine
    next kind => exact ⟨rest, [last], rfl, by simp [onOneDirective, kind]⟩
    next notNewline _ =>
      grind [onOneDirective_concat]

/-- The bracket that closes one of code is code. -/
theorem LinesCloseOwn.closer {pieces before inside after : List Lexeme} {pair : Lexeme × Lexeme}
    (own : LinesCloseOwn pieces) (isKind : pair ∈ bracketPairs)
    (whole : pieces = before ++ pair.1 :: (inside ++ pair.2 :: after))
    (nested : depthAfter pair 1 inside = some 1) : inside.foldl directiveAfter false = false := by
  rw [Bool.eq_false_iff]
  intro onLine
  obtain ⟨front, line, rfl, isLine⟩ := exists_directive onLine
  rw [depthAfter_append] at nested
  obtain ⟨depth, within, returns⟩ := Option.bind_eq_some_iff.mp nested
  obtain ⟨-, ne⟩ := pair_unique _ isKind _ isKind
  have positive := depthAfter_pos (Nat.le_refl 1) within
  have counted := count_of_depthAfter ne returns
  have goesOn : pair.2.kind ≠ .newline := by
    rcases mem_bracketPairs.mp isKind with rfl | rfl | rfl <;> decide
  -- with the closing bracket the line has more closing than opening brackets
  have part : line ++ [pair.2] <:+: pieces := ⟨before ++ pair.1 :: front, after, by rw [whole]; simp⟩
  have bounded := own _ part (onOneDirective_concat isLine goesOn) pair isKind
  grind

end WebShader.Token

namespace WebShader.Definition

open List Token

variable {source : String} {code rest : List Placed} {index pos : Nat} {c : Char}
  {defn : Definition}

/-- Code of a source, from some place on. -/
def Trails (source : String) (code : List Placed) : Prop :=
  code <:+ Token.code (lex source)

namespace Trails

variable {entry : Placed}

theorem exists_split (trails : Trails source code) (mem : entry ∈ code) :
    ∃ before after, lex source = before ++ entry.token :: after ∧
      entry.position = before.length ∧ before.foldl onDirective false = false := by
  obtain ⟨before, after, whole, place, line⟩ := exists_of_mem_codeFrom (trails.subset mem)
  grind

theorem getElem? (trails : Trails source code) (mem : entry ∈ code) :
    (lex source)[entry.position]? = some entry.token := by
  obtain ⟨before, after, whole, place, -⟩ := trails.exists_split mem
  grind

theorem mem_lex (trails : Trails source code) (mem : entry ∈ code) : entry.token ∈ lex source :=
  mem_of_getElem? (trails.getElem? mem)

theorem ordered (trails : Trails source code) :
    code.Pairwise fun first second => first.token.stop ≤ second.token.start :=
  (pairwise_map.mp ((ordered_lex source).sublist map_codeFrom_sublist)).sublist trails.sublist

theorem head_le {first : Placed} (trails : Trails source (first :: code))
    (mem : entry ∈ first :: code) : first.token.start ≤ entry.token.start := by
  rcases mem_cons.mp mem with rfl | later
  · exact Nat.le_refl _
  · have apart := (pairwise_cons.mp trails.ordered).1 entry later
    have long := start_lt_stop (trails.mem_lex mem_cons_self)
    omega

end Trails

/-! Closing a bracket. -/

theorem exists_of_after? (found : after? pos code = some rest) :
    ∃ passed token, code = passed ++ ⟨pos, token⟩ :: rest := by
  induction code with
  | nil => cases found
  | cons entry others ih =>
    rw [after?] at found
    split at found
    next same =>
      obtain rfl := Option.some.inj found
      obtain rfl := eq_of_beq same
      exact ⟨[], entry.token, rfl⟩
    grind

theorem ne_of_after? (absent : after? pos code = none) :
    ∀ entry ∈ code, entry.position ≠ pos := by
  induction code with
  | nil => exact fun _ mem => by cases mem
  | cons entry others ih =>
    rw [after?] at absent
    split at absent
    · cases absent
    next ne => exact forall_mem_cons.mpr ⟨by simpa using ne, ih absent⟩

theorem exists_textAt {text : String} (nonempty : text ≠ "") (spelled : textAt code index = text) :
    ∃ entry, code[index]? = some entry ∧ entry.token.text = text := by
  unfold textAt at spelled
  grind

theorem exists_opener (trails : Trails source code) (spelled : textAt code index = String.ofList [c])
    (alone : frontToken [c] = (.punct, 1)) :
    ∃ opener, code[index]? = some opener ∧ lexeme opener.token = punct c := by
  have nonempty : String.ofList [c] ≠ "" := by
    rw [Ne, ← String.toList_inj, String.toList_ofList]
    exact cons_ne_nil c []
  obtain ⟨opener, placed, text⟩ := exists_textAt nonempty spelled
  exact ⟨opener, placed, lexeme_of_text (trails.mem_lex (mem_of_getElem? placed)) text alone⟩

/-- What closing a bracket of code comes to: nothing closes it, or a directive line that closes more
than it opens, or a bracket of code with code behind it. -/
inductive Closes (source : String) (code : List Placed) (opener : Token) : Closing code → Prop where
  | unclosed : Closes source code opener .unclosed
  | broken (foreign : ¬LinesCloseOwn (lexemes source.toList)) :
      Closes source code opener .inDirective
  | closed {closer : Token} {position : Nat} {rest : List Placed} {shorter}
      (group : ∃ before inside after, lex source = before ++ opener :: (inside ++ closer :: after) ∧
        depthAfter (lexeme opener, lexeme closer) 1 (inside.map lexeme) = some 1)
      (isPair : (lexeme opener, lexeme closer) ∈ bracketPairs)
      (stands : (lex source)[position]? = some closer) (trailing : rest <:+ code)
      (behind : ∀ entry ∈ rest, closer.stop ≤ entry.token.start) :
      Closes source code opener (.closed position ⟨rest, shorter⟩)

/-- Where directive lines close only what they open, the bracket that closes one of code is code. -/
theorem mem_code_closer {before inside after : List Token} {opener closer : Token}
    (own : LinesCloseOwn (lexemes source.toList))
    (whole : lex source = before ++ opener :: (inside ++ closer :: after))
    (line : before.foldl onDirective false = false)
    (isPair : (lexeme opener, lexeme closer) ∈ bracketPairs)
    (nested : depthAfter (lexeme opener, lexeme closer) 1 (inside.map lexeme) = some 1) :
    ⟨before.length + 1 + inside.length, closer⟩ ∈ Token.code (lex source) := by
  have pieces : lexemes source.toList = before.map lexeme ++
      lexeme opener :: (inside.map lexeme ++ lexeme closer :: after.map lexeme) := by
    rw [show lexemes source.toList = (lex source).map lexeme from rfl, whole]
    simp only [map_append, map_cons]
  have state : (before ++ opener :: inside).foldl onDirective false = false := by
    rw [foldl_append, line, foldl_onDirective, map_cons, foldl_cons,
      (directiveAfter_pair isPair false).1, own.closer isPair pieces nested]
  have isCloser : isCode (lexeme closer) := by
    rw [lexeme, (closingBracket?_of_mem isPair).2.2]
    rfl
  have length : 0 + (before ++ opener :: inside).length = before.length + 1 + inside.length := by
    simp only [length_append, length_cons]
    omega
  rw [Token.code, whole, ← cons_append, ← append_assoc, codeFrom_append, state,
    codeFrom_cons isCloser, length]
  exact mem_append_right _ mem_cons_self

theorem closeAt_closes {opener : Placed} (trails : Trails source code)
    (placed : code[index]? = some opener) (isOpener : lexeme opener.token = punct c) :
    Closes source code opener.token (closeAt (lex source) code index) := by
  have mem := mem_of_getElem? placed
  obtain ⟨before, behind, whole, place, line⟩ := trails.exists_split mem
  have aligned : (lex source).drop opener.position = opener.token :: behind := by
    rw [whole, place, List.drop_left]
  unfold closeAt
  split
  · exact .unclosed
  next closing found =>
    rw [placed] at found
    obtain ⟨inside, closer, after, rfl, rfl, isPair, nested⟩ :=
      exists_of_matching? (lexeme_eq isOpener).1 aligned found
    split
    next absent =>
      -- the closing bracket stands behind its partner, so it is in the code from there on
      refine .broken fun own => ?_
      have listed := mem_code_closer own whole line isPair nested
      obtain ⟨passed, parts⟩ := trails
      have ascending := @ascending_codeFrom false 0 (lex source)
      rw [← Token.code, ← parts] at ascending
      rw [← place, ← parts, mem_append] at listed
      rcases listed with earlier | later
      · grind
      · exact ne_of_after? absent _ later rfl
    next rest left =>
      obtain ⟨passed, token, rfl⟩ := exists_of_after? left
      have stands := trails.getElem? (mem_append_right passed mem_cons_self)
      have closes : (lex source)[opener.position + 1 + inside.length]? = some closer := by
        rw [whole, place, getElem?_closer]
      obtain rfl : closer = token := Option.some.inj (closes.symm.trans stands)
      exact .closed ⟨before, inside, after, whole, nested⟩ isPair closes
        ⟨passed ++ [⟨_, closer⟩], append_assoc ..⟩
        (pairwise_cons.mp (pairwise_append.mp trails.ordered).2.1).1

/-! One step. -/

/-- A definition whose body lies between two braces and is balanced. -/
def Braced (tokens : List Token) (definition : Definition) : Prop :=
  ∃ before opener inside closer after, tokens = before ++ opener :: (inside ++ closer :: after) ∧
    lexeme opener = punct '\x7b' ∧ lexeme closer = punct '\x7d' ∧
    Balanced (punct '\x7b', punct '\x7d') (inside.map lexeme) ∧
    definition.bodyStart = opener.stop ∧ definition.bodyStop = closer.start

/-- A definition of some code, in front of the code that is left. -/
structure Embedded (source : String) (code rest : List Placed) (definition : Definition) : Prop where
  braced : Braced (lex source) definition
  starts : ∃ entry ∈ code, definition.start = entry.token.start
  opens : definition.start < definition.bodyStart
  body : definition.bodyStart ≤ definition.bodyStop
  closes : definition.bodyStop < definition.stop
  ends : definition.stop ≤ source.length
  behind : ∀ entry ∈ rest, definition.stop ≤ entry.token.start
  trailing : rest <:+ code

/-- What a step comes to. -/
inductive Stepped (source : String) (code : List Placed) : Except Fault (Step code) → Prop where
  | unclosed : Stepped source code (.ok .unclosed)
  | broken {fault : Fault} (foreign : ¬LinesCloseOwn (lexemes source.toList)) :
      Stepped source code (.error fault)
  | found {definition : Definition} {rest : List Placed} {shorter}
      (laid : Embedded source code rest definition) :
      Stepped source code (.ok (.found definition ⟨rest, shorter⟩))
  | other {atStart : Bool} {rest : List Placed} {shorter} (trailing : rest <:+ code) :
      Stepped source code (.ok (.other atStart ⟨rest, shorter⟩))

section Steps

variable {first opener : Placed} {others inner left : List Placed} {closer : Token}

/-- A body in braces makes a definition, wherever that ends. -/
theorem embedded_of_group (trails : Trails source (first :: others)) (within : opener ∈ first :: others)
    (isBrace : lexeme opener.token = punct '\x7b')
    (group : ∃ before inside after,
      lex source = before ++ opener.token :: (inside ++ closer :: after) ∧
        depthAfter (lexeme opener.token, lexeme closer) 1 (inside.map lexeme) = some 1)
    (isPair : (lexeme opener.token, lexeme closer) ∈ bracketPairs)
    (start : defn.start = first.token.start)
    (bodyStart : defn.bodyStart = opener.token.stop)
    (bodyStop : defn.bodyStop = closer.start) (reach : closer.stop ≤ defn.stop)
    (ends : defn.stop ≤ source.length)
    (behind : ∀ entry ∈ left, defn.stop ≤ entry.token.start)
    (trailing : left <:+ first :: others) : Embedded source (first :: others) left defn := by
  obtain ⟨before, inside, after, whole, nested⟩ := group
  have isCloser : lexeme closer = punct '\x7d' :=
    (pair_unique _ isPair (punct '\x7b', punct '\x7d') (by decide)).1.mp isBrace
  rw [isBrace, isCloser] at nested
  have head := trails.head_le within
  have opens := start_lt_stop (trails.mem_lex within)
  have closes : closer.start < closer.stop := start_lt_stop (by rw [whole]; simp)
  have ordered := ordered_lex source
  rw [whole, pairwise_append, pairwise_cons] at ordered
  have body := ordered.2.1.1 closer (by simp)
  exact {
    braced := ⟨before, opener.token, inside, closer, after, whole, isBrace, isCloser,
      balanced_of_depthAfter (by decide) nested, bodyStart, bodyStop⟩
    starts := ⟨first, mem_cons_self, start⟩
    opens := by omega
    body := by omega
    closes := by omega
    ends
    behind
    trailing }

theorem stop_le_length (placed : (lex source)[pos]? = some closer) :
    closer.stop ≤ source.length :=
  ((covers_lex source).ordered.2.2 closer (mem_of_getElem? placed)).2

theorem tokenStart_eq (placed : (lex source)[pos]? = some closer) :
    tokenStart (lex source) pos = closer.start ∧
      tokenStop (lex source) pos = closer.stop := by
  rw [tokenStart, tokenStop, placed]
  exact ⟨rfl, rfl⟩

/-- A structure ends between its brace and the code that is left. -/
theorem structStop_within {reach : Nat} (trails : Trails source rest)
    (behind : ∀ entry ∈ rest, reach ≤ entry.token.start) (bounded : reach ≤ source.length) :
    reach ≤ structStop reach rest ∧ structStop reach rest ≤ source.length ∧
      ∀ entry ∈ afterSemicolon rest, structStop reach rest ≤ entry.token.start := by
  have reaches {entry : Placed} (mem : entry ∈ rest) :
      reach ≤ entry.token.stop ∧ entry.token.stop ≤ source.length := by
    have long := start_lt_stop (trails.mem_lex mem)
    have := behind entry mem
    exact ⟨by omega, stop_le_length (trails.getElem? mem)⟩
  cases found : rest.find? fun entry => entry.token.text == ";" with
  | some entry =>
    obtain ⟨isEnd, front, back, rfl, others⟩ := find?_eq_some_iff_append.mp found
    have left : afterSemicolon (front ++ entry :: back) = back := by simp_all [afterSemicolon]
    rw [structStop, found, left]
    obtain ⟨reached, within⟩ := reaches (mem_of_find?_eq_some found)
    exact ⟨reached, within, (pairwise_cons.mp (pairwise_append.mp trails.ordered).2.1).1⟩
  | none =>
    have left : afterSemicolon rest = [] := by
      have all : ∀ entry ∈ rest, (entry.token.text != ";") := by simpa using found
      rw [afterSemicolon, dropWhile_eq_nil_iff.mpr all, drop_nil]
    rw [structStop]
    grind

theorem structStep_stepped (trails : Trails source (first :: others))
    (opens : opensStruct (first :: others)) :
    Stepped source (first :: others) (structStep (lex source) (first :: others)) := by
  simp only [opensStruct, Bool.and_eq_true, beq_iff_eq] at opens
  obtain ⟨opener, placed, isBrace⟩ := exists_opener trails opens.2 (by decide)
  have closes := closeAt_closes trails placed isBrace
  unfold structStep
  generalize closeAt (lex source) (first :: others) 2 = closing at closes
  cases closes with
  | unclosed => exact .unclosed
  | broken foreign => exact .broken foreign
  | closed group isPair stands trailing behind =>
    obtain ⟨start, stop⟩ := tokenStart_eq stands
    obtain ⟨reach, ends, later⟩ :=
      structStop_within (trailing.trans trails) behind (stop_le_length stands)
    rw [← stop] at reach ends later
    refine .found (embedded_of_group trails (mem_of_getElem? placed) isBrace group isPair rfl
      (by rw [placed]; rfl) start (stop ▸ reach) ends later ?_)
    exact ((drop_suffix _ _).trans (dropWhile_suffix _)).trans trailing

theorem functionStep_stepped (trails : Trails source (first :: others))
    (opens : opensFunction (first :: others)) :
    functionStep (lex source) (first :: others) = .ok none ∨
      ∃ outcome, functionStep (lex source) (first :: others) = outcome.map some ∧
        Stepped source (first :: others) outcome := by
  simp only [opensFunction, Bool.and_eq_true, beq_iff_eq] at opens
  obtain ⟨paren, placed, isParen⟩ := exists_opener trails opens.1.2 (by decide)
  have closes := closeAt_closes trails placed isParen
  unfold functionStep
  simp only
  generalize closeAt (lex source) (first :: others) _ = closing at closes
  cases closes with
  | unclosed => exact .inr ⟨_, rfl, .unclosed⟩
  | broken foreign => exact .inr ⟨_, rfl, .broken foreign⟩
  | @closed _ _ afterParams _ _ _ _ within =>
    simp only
    split
    · exact .inl rfl
    next brace =>
      have innerTrails := within.trans trails
      have spelled : textAt afterParams 0 = "\x7b" := by simpa using brace
      obtain ⟨opener, placed, isBrace⟩ := exists_opener innerTrails spelled (by decide)
      have closes := closeAt_closes innerTrails placed isBrace
      generalize closeAt (lex source) afterParams 0 = closing at closes
      cases closes with
      | unclosed => exact .inr ⟨_, rfl, .unclosed⟩
      | broken foreign => exact .inr ⟨_, rfl, .broken foreign⟩
      | closed group isPair stands trailing behind =>
        obtain ⟨start, stop⟩ := tokenStart_eq stands
        refine .inr ⟨_, rfl, .found (embedded_of_group trails
          (within.subset (mem_of_getElem? placed)) isBrace group isPair rfl
          (by rw [placed]; rfl) start (Nat.le_of_eq stop.symm) (stop ▸ stop_le_length stands)
          (stop ▸ behind) (trailing.trans within))⟩

theorem otherStep_stepped (trails : Trails source (first :: others)) :
    Stepped source (first :: others) (otherStep (lex source) first others) := by
  unfold otherStep
  split
  next brace =>
    have spelled : textAt (first :: others) 0 = "\x7b" := isPunct_text brace
    obtain ⟨opener, placed, isBrace⟩ := exists_opener trails spelled (by decide)
    have closes := closeAt_closes trails placed isBrace
    generalize closeAt (lex source) (first :: others) 0 = closing at closes
    cases closes with
    | unclosed => exact .unclosed
    | broken foreign => exact .broken foreign
    | closed group isPair stands trailing behind => exact .other trailing
  · exact .other (suffix_cons first others)

theorem step_stepped (trails : Trails source (first :: others)) (atStart : Bool) :
    Stepped source (first :: others) (step (lex source) atStart first others) := by
  unfold step
  split
  next opens => exact structStep_stepped trails opens
  · split
    next opens =>
      rcases functionStep_stepped trails (Bool.and_eq_true_iff.mp opens).2 with
        none | ⟨outcome, fn, stepped⟩
      · rw [none]
        exact otherStep_stepped trails
      · rw [fn]
        cases stepped with
        | unclosed => exact .unclosed
        | broken foreign => exact .broken foreign
        | found laid => exact .found laid
        | other trailing => exact .other trailing
    · exact otherStep_stepped trails

end Steps

/-! The scan. -/

/-- What the scan comes to: definitions that lie in the code one behind the other. -/
inductive Scanned (source : String) (code : List Placed) : Except Fault (List Definition) → Prop where
  | broken {fault : Fault} (foreign : ¬LinesCloseOwn (lexemes source.toList)) :
      Scanned source code (.error fault)
  | found {definitions : List Definition}
      (ordered : definitions.Pairwise fun first second => first.stop ≤ second.start)
      (laid : ∀ definition ∈ definitions, ∃ inner rest, inner <:+ code ∧
        Embedded source inner rest definition) : Scanned source code (.ok definitions)

theorem scanFrom_scanned {atStart : Bool} (trails : Trails source code) :
    Scanned source code (scanFrom (lex source) atStart code) := by
  fun_induction scanFrom (lex source) atStart code with
  | case1 => exact .found .nil fun _ absurdity => by cases absurdity
  | case2 atStart entry rest fault outcome =>
    have stepped := step_stepped trails atStart
    rw [outcome] at stepped
    cases stepped with
    | broken foreign => exact .broken foreign
  | case3 => exact .found .nil fun _ absurdity => by cases absurdity
  | case4 atStart entry rest first after shorter outcome ih =>
    have stepped := step_stepped trails atStart
    rw [outcome] at stepped
    cases stepped with
    | found here =>
      have later := ih (here.trailing.trans trails)
      generalize scanFrom (lex source) true after = scanned at later
      cases later with
      | broken foreign => exact .broken foreign
      | found ordered laid =>
        refine .found (.cons (fun second mem => ?_) ordered) (forall_mem_cons.mpr
          ⟨⟨_, _, suffix_refl _, here⟩, fun second mem => ?_⟩)
        · obtain ⟨inner, n, within, second⟩ := laid second mem
          obtain ⟨opens, listed, start⟩ := second.starts
          rw [start]
          exact here.behind opens (within.subset listed)
        · obtain ⟨inner, n, within, second⟩ := laid second mem
          exact ⟨inner, n, within.trans here.trailing, second⟩
  | case5 atStart entry rest startsNext after shorter outcome ih =>
    have stepped := step_stepped trails atStart
    rw [outcome] at stepped
    cases stepped with
    | other trailing =>
      have later := ih (trailing.trans trails)
      generalize scanFrom (lex source) startsNext after = scanned at later
      cases later with
      | broken foreign => exact .broken foreign
      | found ordered laid =>
        refine .found ordered fun defn mem => ?_
        grind

theorem ofSource_scanned (source : String) :
    Scanned source (Token.code (lex source)) (ofSource source) :=
  scanFrom_scanned (suffix_refl _)

/-- The source around a body in braces. -/
theorem Braced.cut (braced : Braced (lex source) defn) :
    ∃ before inside after, source = before ++ "\x7b" ++ inside ++ "\x7d" ++ after ∧
      defn.bodyStart = (before ++ "\x7b").length ∧
      defn.bodyStop = (before ++ "\x7b" ++ inside).length := by
  obtain ⟨left, opener, middle, closer, right, tokens, opens, closes, -, start, stop⟩ := braced
  have openerText : opener.text = "\x7b" := (lexeme_eq opens).2
  have closerText : closer.text = "\x7d" := (lexeme_eq closes).2
  have whole := render_lex source
  have covers := covers_lex source
  rw [tokens] at whole covers
  obtain ⟨openerStart, afterOpener⟩ := covers.cut
  obtain ⟨closerStart, -⟩ := afterOpener.cut
  have openerStop : opener.stop = (render left ++ "\x7b").length := by
    rw [Token.stop, openerStart, String.length_append, Nat.zero_add, openerText]
  refine ⟨render left, render middle, render right, ?_, start.trans openerStop, ?_⟩
  · grind [render_append, render_cons]
  simp_all

/-- The source around the body of one of its definitions. -/
theorem ofSource_cut {defns : List Definition} (scanned : ofSource source = .ok defns)
    (mem : defn ∈ defns) :
    ∃ before inside after, source = before ++ "\x7b" ++ inside ++ "\x7d" ++ after ∧
      defn.bodyStart = (before ++ "\x7b").length ∧
      defn.bodyStop = (before ++ "\x7b" ++ inside).length := by
  have found := ofSource_scanned source
  rw [scanned] at found
  cases found with
  | found _ laid =>
    obtain ⟨_, _, _, laid⟩ := laid defn mem
    exact laid.braced.cut

/-- Where directive lines close only what they open, a source has definitions. They lie in it one
behind the other, and the body of each is balanced and lies between a brace and the one that
closes it. -/
theorem ofSource_ordered (source : String) (own : LinesCloseOwn (lexemes source.toList)) :
    ∃ definitions, ofSource source = .ok definitions ∧
      definitions.Pairwise (fun first second => first.stop ≤ second.start) ∧
      ∀ definition ∈ definitions, definition.start < definition.bodyStart ∧
        definition.bodyStart ≤ definition.bodyStop ∧ definition.bodyStop < definition.stop ∧
        definition.stop ≤ source.length ∧ source.toList[definition.bodyStart - 1]? = some '\x7b' ∧
        source.toList[definition.bodyStop]? = some '\x7d' ∧ Braced (lex source) definition := by
  have scanned := ofSource_scanned source
  generalize ofSource source = outcome at scanned
  cases scanned with
  | broken foreign => exact absurd own foreign
  | @found definitions ordered laid =>
    refine ⟨definitions, rfl, ordered, fun definition member => ?_⟩
    obtain ⟨_, _, _, laid⟩ := laid definition member
    obtain ⟨before, inside, after, whole, start, stop⟩ := laid.braced.cut
    refine ⟨laid.opens, laid.body, laid.closes, laid.ends, ?_, ?_, laid.braced⟩
    · rw [start, whole]
      simp [← String.length_toList]
    · rw [stop, whole]
      simp [← String.length_toList]

theorem ofSource_ordered_macro : ∃ definitions,
    ofSource "#define F(x) \x7bx\x7d\nvoid f() \x7b F(1) \x7d" = .ok definitions ∧
      definitions.Pairwise fun first second => first.stop ≤ second.start := by
  obtain ⟨definitions, scanned, ordered, -⟩ :=
    ofSource_ordered "#define F(x) \x7bx\x7d\nvoid f() \x7b F(1) \x7d" (by decide +kernel)
  exact ⟨definitions, scanned, ordered⟩

end WebShader.Definition
