import WebShader.Sharing.Reference

/-!
Contract: what the edits of a redirection do to each token.

Owns: the redirected text as one walk over the tokens, and where conversions
open and close in this walk.

A call opens only behind an equals sign and closes only in front of a closing
bracket, a comma or a semicolon.
-/

namespace WebShader.Sharing

open List Token

variable {conversion : Conversion} {placed : List Placed} {tokens : List Token} {position : Nat}
  {prev : Option Token}

def significantFrom (position : Nat) : List Token → List Placed
  | [] => []
  | token :: rest =>
    if token.isTrivia then significantFrom (position + 1) rest
    else ⟨position, token⟩ :: significantFrom (position + 1) rest

theorem significant_eq (tokens : List Token) : significant tokens = significantFrom 0 tokens := by
  have walk : ∀ position, ((tokens.zipIdx position).filter fun entry => !entry.1.isTrivia).map
      (fun entry => (⟨entry.2, entry.1⟩ : Placed)) = significantFrom position tokens := by
    induction tokens with
    | nil => exact fun _ => rfl
    | cons token rest ih => grind [significantFrom, zipIdx_cons]
  exact walk 0

theorem le_of_mem_significantFrom {entry : Placed}
    (mem : entry ∈ significantFrom position tokens) : position ≤ entry.position := by
  induction tokens generalizing position with
  | nil => cases mem
  | cons token rest ih =>
    rw [significantFrom] at mem
    grind

theorem head?_significantFrom (position : Nat) (tokens : List Token) :
    (significantFrom position tokens).head?.map Placed.token =
      tokens.find? fun token => !token.isTrivia := by
  induction tokens generalizing position with
  | nil => rfl
  | cons token rest ih =>
    rw [significantFrom, find?_cons]
    cases trivia : token.isTrivia with
    | true => exact ih (position + 1)
    | false => rfl

/-! The walk. -/

section Walk

variable (name : String) (channel : Channel) (conversions : List Conversion)

def isReference (previous : Option Token) (token : Token) : Bool :=
  token.isWord name && !selectsMember previous

/-- The text of a token after the redirection, without what stands in front of it. -/
def redirectedText (previous : Option Token) (token : Token) (rest : List Token) : String :=
  if isReference name previous token then
    referenceText channel (referenceUse previous (rest.find? fun next => !next.isTrivia))
  else token.text

def redirectFrom (previous : Option Token) (position : Nat) : List Token → List Char
  | [] => []
  | token :: rest =>
    (insertedBefore (channel.typeName ++ "(") conversions position).toList ++
      ((redirectedText name channel previous token rest).toList ++
        redirectFrom (significantAfter previous token) (position + 1) rest)

theorem mem_of_mem_texts {edit : Nat × String}
    (mem : edit ∈ (editsFrom name channel prev placed).texts) :
    ∃ entry ∈ placed, edit.1 = entry.position := by
  induction placed generalizing prev with
  | nil => cases mem
  | cons entry rest ih =>
    rw [editsFrom] at mem
    grind

theorem applyEdits_skip {opener : String} {texts : List (Nat × String)}
    (behind : ∀ edit ∈ texts, position < edit.1) (token : Token) (rest : List Token) :
    applyEdits opener conversions position texts (token :: rest) =
      insertedBefore opener conversions position :: token.text ::
        applyEdits opener conversions (position + 1) texts rest := by
  cases texts with
  | nil => rw [applyEdits]
  | cons edit others =>
    have later := behind edit mem_cons_self
    rw [applyEdits, if_neg (by simp only [beq_iff_eq]; omega)]

theorem isReference_trivia {token : Token} (trivia : token.isTrivia)
    (prev : Option Token) : isReference name prev token = false := by
  have kind : token.kind ≠ .ident := by
    intro ident
    rw [Token.isTrivia, ident] at trivia
    cases trivia
  simp [isReference, Token.isWord, kind]

theorem applyEdits_eq (prev : Option Token) (position : Nat) (tokens : List Token) :
    (String.join (applyEdits (channel.typeName ++ "(") conversions position
      (editsFrom name channel prev (significantFrom position tokens)).texts tokens)).toList =
        redirectFrom name channel conversions prev position tokens := by
  induction tokens generalizing prev position with
  | nil => simp [applyEdits, redirectFrom]
  | cons token rest ih =>
    have behind : ∀ edit ∈ (editsFrom name channel (significantAfter prev token)
        (significantFrom (position + 1) rest)).texts, position < edit.1 := by
      intro edit mem
      obtain ⟨entry, listed, same⟩ := mem_of_mem_texts name channel mem
      have := le_of_mem_significantFrom listed
      omega
    have later := ih (significantAfter prev token) (position + 1)
    rw [redirectFrom, redirectedText, ← later]
    cases trivia : token.isTrivia with
    | true =>
      rw [significantAfter, if_pos trivia] at behind
      rw [significantFrom, if_pos trivia, applyEdits_skip conversions behind,
        isReference_trivia name trivia, significantAfter, if_pos trivia]
      simp [String.join_cons]
    | false =>
      have notTrivia : ¬token.isTrivia := by simp [trivia]
      rw [significantAfter, if_neg notTrivia] at behind
      rw [significantFrom, if_neg notTrivia, editsFrom, significantAfter, if_neg notTrivia,
        ← head?_significantFrom (position + 1) rest]
      cases reference : isReference name prev token with
      | true =>
        rw [isReference] at reference
        rw [if_pos reference, applyEdits]
        simp [String.join_cons]
      | false =>
        rw [isReference] at reference
        rw [if_neg (by simp [reference]), applyEdits_skip conversions behind]
        simp [String.join_cons]

end Walk

/-! Where conversions open and close. -/

/-- Positions of the tokens behind an equals sign. -/
def afterEquals (previous : Option Token) : List Placed → List Nat
  | [] => []
  | entry :: rest =>
    (if previous.any (·.isPunct "=") then [entry.position] else []) ++
      afterEquals (some entry.token) rest

def closesExpression (token : Token) : Bool :=
  token.isPunctIn [")", "]", "\x7d"] || token.isPunctIn [";", ","]

/-- Positions of the tokens that may end an expression. -/
def closingPositions (placed : List Placed) : List Nat :=
  (placed.filter (closesExpression ·.token)).map Placed.position

theorem mem_closingPositions_head {entry : Placed} (closes : closesExpression entry.token)
    (rest : List Placed) : entry.position ∈ closingPositions (entry :: rest) := by
  rw [closingPositions, filter_cons, if_pos closes]
  exact mem_cons_self

theorem mem_closingPositions_tail {rest : List Placed} (mem : position ∈ closingPositions rest)
    (entry : Placed) : position ∈ closingPositions (entry :: rest) := by
  rw [closingPositions, filter_cons]
  split
  · exact mem_cons_of_mem _ mem
  · exact mem

theorem expressionEnd?_mem {depth stop : Nat} (found : expressionEnd? depth placed = some stop) :
    stop ∈ closingPositions placed := by
  fun_induction expressionEnd? depth placed with
  | case1 => cases found
  | case2 depth entry rest opens ih =>
    exact mem_closingPositions_tail (ih found) entry
  | case3 depth entry rest notOpens closes outermost =>
    cases found
    exact mem_closingPositions_head (by simp [closesExpression, closes]) rest
  | case4 depth entry rest notOpens closes nested ih =>
    exact mem_closingPositions_tail (ih found) entry
  | case5 depth entry rest notOpens notCloses stops =>
    cases found
    simp only [Bool.and_eq_true] at stops
    exact mem_closingPositions_head (by simp [closesExpression, stops.2]) rest
  | case6 depth entry rest notOpens notCloses notStops ih =>
    exact mem_closingPositions_tail (ih found) entry

theorem mem_of_conversion? (found : conversion? placed = some conversion) :
    (∃ entry rest, placed = entry :: rest ∧ conversion.start = entry.position) ∧
      conversion.stop ∈ closingPositions placed := by
  cases placed with
  | nil => cases found
  | cons entry rest =>
    obtain ⟨stop, ends, rfl⟩ := Option.map_eq_some_iff.mp found
    exact ⟨⟨entry, rest, rfl, rfl⟩, expressionEnd?_mem ends⟩

theorem equals_of_assigned {next : Option Token} (assigned : referenceUse prev next = .assigned) :
    next.any (·.isPunct "=") := by grind [referenceUse]

theorem mem_of_mem_conversions {name : String} {channel : Channel}
    (mem : conversion ∈ (editsFrom name channel prev placed).conversions) :
    conversion.start ∈ afterEquals prev placed ∧ conversion.stop ∈ closingPositions placed := by
  induction placed generalizing prev with
  | nil => cases mem
  | cons entry rest ih =>
    have later : conversion ∈ (editsFrom name channel (some entry.token) rest).conversions →
        conversion.start ∈ afterEquals prev (entry :: rest) ∧
          conversion.stop ∈ closingPositions (entry :: rest) := by
      intro further
      obtain ⟨starts, stops⟩ := ih further
      exact ⟨mem_append_right _ starts, mem_closingPositions_tail stops entry⟩
    rw [editsFrom] at mem
    split at mem
    · rcases mem_append.mp mem with here | further
      · split at here
        next assigned =>
          simp only [Bool.and_eq_true, beq_iff_eq] at assigned
          have equals := equals_of_assigned assigned.2
          obtain ⟨⟨first, others, shape, starts⟩, stops⟩ :=
            mem_of_conversion? (Option.mem_toList.mp here)
          cases rest with
          | nil => cases shape
          | cons sign tail => simp_all [mem_closingPositions_tail, afterEquals]
        · cases here
      · exact later further
    · exact later mem

/-- The conversions open and close where they may, in front of a position or from it on. -/
structure Anchored (conversions : List Conversion) (previous : Option Token) (position : Nat)
    (tokens : List Token) : Prop where
  starts : ∀ conversion ∈ conversions, conversion.start < position ∨
    conversion.start ∈ afterEquals previous (significantFrom position tokens)
  stops : ∀ conversion ∈ conversions, conversion.stop < position ∨
    conversion.stop ∈ closingPositions (significantFrom position tokens)

theorem anchored_edits (name : String) (channel : Channel) (tokens : List Token) :
    Anchored (editsFrom name channel none (significantFrom 0 tokens)).conversions none 0 tokens where
  starts := fun _ mem => .inr (mem_of_mem_conversions mem).1
  stops := fun _ mem => .inr (mem_of_mem_conversions mem).2

theorem le_of_mem_afterEquals {start : Nat}
    (mem : start ∈ afterEquals prev (significantFrom position tokens)) :
    position ≤ start := by
  have listed : ∀ (placed : List Placed) (before : Option Token), start ∈ afterEquals before placed →
      ∃ entry ∈ placed, entry.position = start := by
    intro placed
    induction placed with
    | nil => exact fun _ absurdity => absurd absurdity not_mem_nil
    | cons entry rest ih =>
      intro before found
      rcases mem_append.mp found with here | further
      · grind
      grind
  obtain ⟨entry, entryListed, rfl⟩ := listed _ _ mem
  exact le_of_mem_significantFrom entryListed

theorem le_of_mem_closingPositions {stop : Nat}
    (mem : stop ∈ closingPositions (significantFrom position tokens)) : position ≤ stop := by
  obtain ⟨entry, kept, rfl⟩ := mem_map.mp mem
  exact le_of_mem_significantFrom (mem_filter.mp kept).1

namespace Anchored

variable {conversions : List Conversion} {prev : Option Token} {position : Nat}
  {token : Token} {rest : List Token}

theorem tail (anchored : Anchored conversions prev position (token :: rest)) :
    Anchored conversions (significantAfter prev token) (position + 1) rest where
  starts := by
    intro conversion mem
    rcases anchored.starts conversion mem with before | here
    · exact .inl (Nat.lt_succ_of_lt before)
    · rw [significantFrom] at here
      rw [significantAfter]
      split at here
      next trivia => exact .inr (by rwa [if_pos trivia])
      next code =>
        rw [if_neg code]
        rcases mem_append.mp here with first | further
        · grind
        · exact .inr further
  stops := by
    intro conversion mem
    rcases anchored.stops conversion mem with before | here
    · exact .inl (Nat.lt_succ_of_lt before)
    · rw [significantFrom] at here
      split at here
      · exact .inr here
      · rw [closingPositions, filter_cons] at here
        split at here
        · rcases mem_cons.mp here with same | further
          · exact .inl (by rw [same]; exact Nat.lt_succ_self _)
          · exact .inr further
        · exact .inr here

/-- A call opens at significant tokens behind an equals sign only. -/
theorem opens (anchored : Anchored conversions prev position (token :: rest))
    (mem : conversion ∈ conversions) (here : conversion.start = position) :
    token.isTrivia = false ∧ prev.any (·.isPunct "=") := by
  rcases anchored.starts conversion mem with before | listed
  · omega
  · rw [significantFrom] at listed
    split at listed
    · have := le_of_mem_afterEquals listed
      omega
    next code =>
      rcases mem_append.mp listed with first | further
      · grind
      · have := le_of_mem_afterEquals further
        omega

/-- A call closes in front of tokens that end an expression only. -/
theorem closes (anchored : Anchored conversions prev position (token :: rest))
    (mem : conversion ∈ conversions) (here : conversion.stop = position) :
    closesExpression token := by
  rcases anchored.stops conversion mem with before | listed
  · omega
  · rw [significantFrom] at listed
    split at listed
    · have := le_of_mem_closingPositions listed
      omega
    · rw [closingPositions, filter_cons] at listed
      split at listed
      next closing => exact closing
      · have := le_of_mem_closingPositions listed
        omega

end Anchored

/-- Closing brackets, then opened calls. -/
def insertion (opener : List Char) (closers openers : Nat) : List Char :=
  List.replicate closers ')' ++ (List.replicate openers opener).flatten

theorem insertion_open (opener : List Char) (closers openers : Nat) :
    insertion opener closers openers ++ opener = insertion opener closers (openers + 1) := by
  rw [insertion, insertion, replicate_succ', flatten_concat, append_assoc]

theorem insertion_close (opener : List Char) (closers openers : Nat) :
    ')' :: insertion opener closers openers = insertion opener (closers + 1) openers := rfl

/-- What is inserted in front of a position, and the conversions that ask for it. -/
structure Inserts (opener : List Char) (conversions : List Conversion) (position : Nat)
    (text : List Char) (closers openers : Nat) : Prop where
  shape : text = insertion opener closers openers
  closes : closers ≠ 0 → ∃ conversion ∈ conversions, conversion.stop = position
  opens : openers ≠ 0 → ∃ conversion ∈ conversions, conversion.start = position

theorem exists_insertedBefore (opener : String) (conversions : List Conversion) (position : Nat) :
    ∃ closers openers, Inserts opener.toList conversions position
      (insertedBefore opener conversions position).toList closers openers := by
  -- From any insertion on, each conversion adds at most one call and one bracket.
  have fold : ∀ (listed : List Conversion) (text : String) (closers openers : Nat),
      Inserts opener.toList conversions position text.toList closers openers →
      (∀ conversion ∈ listed, conversion ∈ conversions) →
      ∃ closers openers, Inserts opener.toList conversions position
        (listed.foldl (fun text conversion =>
          let opened := if conversion.start == position then text ++ opener else text
          if conversion.stop == position then ")" ++ opened else opened) text).toList
        closers openers := by
    intro listed
    induction listed with
    | nil => grind
    | cons conversion rest ih =>
      intro text closers openers inserts subset
      have mem := subset conversion mem_cons_self
      have others := (forall_mem_cons.mp subset).2
      by_cases opensHere : conversion.start = position <;>
        by_cases closesHere : conversion.stop = position
      · refine ih _ (closers + 1) (openers + 1)
          ⟨?_, fun _ => ⟨_, mem, closesHere⟩, fun _ => ⟨_, mem, opensHere⟩⟩ others
        simp [opensHere, closesHere, inserts.shape, insertion_open, ← insertion_close]
      · refine ih _ closers (openers + 1) ⟨?_, inserts.closes, fun _ => ⟨_, mem, opensHere⟩⟩ others
        simp [opensHere, closesHere, inserts.shape, insertion_open]
      · refine ih _ (closers + 1) openers ⟨?_, fun _ => ⟨_, mem, closesHere⟩, inserts.opens⟩ others
        simp [opensHere, closesHere, inserts.shape, ← insertion_close]
      grind
  exact fold conversions "" 0 0 ⟨rfl, absurd rfl, absurd rfl⟩ fun _ mem => mem

end WebShader.Sharing
