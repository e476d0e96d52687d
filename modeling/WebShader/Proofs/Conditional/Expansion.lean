import WebShader.Proofs.Conditional.MacroMeaning

/-!
Contract: the expansion of macros comes to an end and leaves nothing to expand.

Owns: the names of an expression; expansion as a relation without a bound on its
steps, under which every expression has a result; and tables without cycles and
long chains, whose expansions hold no object-like macro.

A macro's value is any text. What it leaves behind is empty or in parentheses, and
names end where words do, so that nothing grows together to a new name.
-/

namespace WebShader.Conditional

open List Text Condition

variable {c : Char} {rest text : List Char} {prev other : Option Char} {name : String}
  {render : String → List Char}

/-! Names. -/

def namesFrom (previous : Option Char) (text : List Char) : List String :=
  (piecesFrom previous text).flatMap fun
    | .name name => [name]
    | .other _ => []

def names (expression : String) : List String :=
  namesFrom none expression.toList

/-- A text is read name by name, and between names character by character. -/
theorem reading {motive : Option Char → List Char → Prop} (nil : ∀ prev, motive prev [])
    (name : ∀ prev first run rest, isNameStart first → startsWord prev →
      run.all isWord → rest.head?.any isWord = false →
      motive (first :: run).getLast? rest → motive prev (first :: run ++ rest))
    (copy : ∀ prev c rest, (isNameStart c && startsWord prev) = false →
      motive (some c) rest → motive prev (c :: rest))
    (prev : Option Char) (text : List Char) : motive prev text := by
  fun_induction piecesFrom prev text with
  | case1 prev => exact nil prev
  | case2 prev first others starts ih =>
    have ends : (others.dropWhile isWord).head?.any isWord = false := by
      have stops := head?_dropWhile_not isWord others
      cases behind : (others.dropWhile isWord).head? with
      | none => rfl
      | some c => simpa [behind] using stops
    grind [all_takeWhile, takeWhile_append_dropWhile]
  | case3 prev c rest copied ih => grind

theorem namesFrom_nil (prev : Option Char) : namesFrom prev [] = [] := by
  rw [namesFrom, piecesFrom]
  rfl

theorem namesFrom_copy (copied : (isNameStart c && startsWord prev) = false) (rest : List Char) :
    namesFrom prev (c :: rest) = namesFrom (some c) rest := by
  rw [namesFrom, piecesFrom, if_neg (by rw [copied]; exact Bool.false_ne_true)]
  rfl

theorem namesFrom_plain (plain : isWord c = false) (prev : Option Char) (rest : List Char) :
    namesFrom prev (c :: rest) = namesFrom (some c) rest :=
  namesFrom_copy (by rw [(plain_of_not_isWord plain).2, Bool.false_and]) rest

theorem namesFrom_name {first : Char} {run : List Char} (start : isNameStart first)
    (words : run.all isWord) (ends : rest.head?.any isWord = false)
    (starts : startsWord prev) :
    namesFrom prev (first :: run ++ rest) =
      String.ofList (first :: run) :: namesFrom (first :: run).getLast? rest := by
  obtain ⟨taken, dropped⟩ := takeWhile_word words ends
  rw [namesFrom, cons_append, piecesFrom, if_pos (by rw [start, starts]; rfl), taken, dropped]
  rfl

/-- Only a word tells the characters in front of a text apart. -/
theorem namesFrom_congr (same : text.head?.any isWord → startsWord other = startsWord prev) :
    namesFrom other text = namesFrom prev text := by
  cases text with
  | nil => rw [namesFrom_nil, namesFrom_nil]
  | cons c rest => grind [Token.nameStart_word, namesFrom, piecesFrom]

/-- Where no word goes on, the names of two texts stay apart. -/
theorem namesFrom_append (plain : isWord c = false) (prev : Option Char)
    (text rest : List Char) :
    namesFrom prev (text ++ c :: rest) = namesFrom prev text ++ namesFrom (some c) rest := by
  induction prev, text using reading with
  | nil prev => rw [nil_append, namesFrom_plain plain, namesFrom_nil, nil_append]
  | name prev first run others start starts words ends ih =>
    have further : (others ++ c :: rest).head?.any isWord = false := by
      cases others with
      | nil => simpa using plain
      | cons => exact ends
    grind [namesFrom_name]
  | copy prev d others copied ih =>
    rw [cons_append, namesFrom_copy copied, namesFrom_copy copied, ih]

theorem namesFrom_bracketed (inside rest : List Char) :
    namesFrom prev ('(' :: (inside ++ [')']) ++ rest) =
      namesFrom none inside ++ namesFrom (some ')') rest := by
  have opened : namesFrom (some '(') (inside ++ ')' :: rest) = namesFrom none (inside ++ ')' :: rest) :=
    namesFrom_congr fun _ => rfl
  rw [cons_append, namesFrom_plain (by decide), append_assoc, singleton_append, opened,
    namesFrom_append (by decide)]

theorem namesFrom_inside (inside : List Char) :
    namesFrom none ('(' :: (inside ++ [')'])) = namesFrom none inside := by
  have alone := @namesFrom_bracketed none inside []
  rwa [append_nil, namesFrom_nil, append_nil] at alone

/-- A name of a text is one name. -/
theorem namesFrom_self (mem : name ∈ namesFrom prev text) :
    namesFrom none name.toList = [name] := by
  induction prev, text using reading with
  | nil => rw [namesFrom_nil] at mem; cases mem
  | name prev first run rest start starts words ends ih =>
    rw [namesFrom_name start words ends starts] at mem
    rcases mem_cons.mp mem with rfl | later
    · rw [String.toList_ofList]
      have alone := @namesFrom_name [] none _ _ start words rfl rfl
      rwa [append_nil, namesFrom_nil] at alone
    · exact ih later
  | copy prev c rest copied ih => exact ih (by rwa [namesFrom_copy copied] at mem)

/-! Texts in place of names. -/

theorem rendered_self (same : ∀ name ∈ namesFrom prev text, render name = name.toList) :
    rendered render prev text = text := by
  induction prev, text using reading with
  | nil prev => exact (copies_rendered render).nil prev
  | name prev first run rest start starts words ends ih =>
    rw [namesFrom_name start words ends starts, forall_mem_cons] at same
    rw [rendered_name render start words ends starts, ih same.2, same.1, String.toList_ofList]
  | copy prev c rest copied ih =>
    rw [namesFrom_copy copied] at same
    rw [(copies_rendered render).cons prev c rest copied, ih same]

/-- What takes the place of a name: nothing, the name itself, or a text in parentheses. -/
inductive Leaves (name : String) : List Char → Prop where
  | nothing : Leaves name []
  | same : Leaves name name.toList
  | bracketed (inside : List Char) : Leaves name ('(' :: (inside ++ [')']))

/-- The names of a text with others in place of its names are those of the others. -/
theorem namesFrom_rendered (leaves : ∀ name ∈ namesFrom prev text, Leaves name (render name))
    (same : text.head?.any isWord → startsWord other = startsWord prev) :
    namesFrom other (rendered render prev text) =
      (namesFrom prev text).flatMap fun name => namesFrom none (render name) := by
  have copies := copies_rendered render
  induction prev, text using reading generalizing other with
  | nil prev => rw [copies.nil, namesFrom_nil, namesFrom_nil, flatMap_nil]
  | name prev first run rest start starts words ends ih =>
    have further : (rendered render (first :: run).getLast? rest).head?.any isWord = false := by
      cases rest with
      | nil => rw [copies.nil]; rfl
      | cons c others =>
        have plain : isWord c = false := by simpa using ends
        rwa [copies.cons _ _ _ (by rw [(plain_of_not_isWord plain).2, Bool.false_and])]
    have listed := namesFrom_name start words ends starts
    have alone := @namesFrom_self _ prev _ (listed ▸ mem_cons_self)
    rw [listed, forall_mem_cons] at leaves
    obtain ⟨image, others⟩ := leaves
    have later {last : Option Char} := @ih last others fun word => by rw [word] at ends; cases ends
    rw [rendered_name render start words ends starts, listed, flatMap_cons]
    generalize shape : render (String.ofList (first :: run)) = left at image
    cases image with
    | nothing => rw [nil_append, later, namesFrom_nil, nil_append]
    | same => grind [String.toList_ofList, namesFrom_name, Token.nameStart_word]
    | bracketed inside =>
      rw [namesFrom_bracketed, namesFrom_inside, later]
  | copy prev c rest copied ih =>
    rw [namesFrom_copy copied] at leaves
    have stays : (isNameStart c && startsWord other) = false := by
      cases word : isWord c with
      | false => rw [(plain_of_not_isWord word).2, Bool.false_and]
      | true => rwa [same (by simpa using word)]
    rw [copies.cons _ _ _ copied, namesFrom_copy stays, namesFrom_copy copied]
    exact ih leaves fun _ => rfl

namespace MacroTable

variable {table : MacroTable} {enclosing : List String} {depth : Nat} {expr : String}

/-! Expansion without a bound. -/

def isObjectLike (table : MacroTable) (name : String) : Bool :=
  (table.find? name).any (·.parameters.isNone)

mutual

/-- The expansion of an expression inside some macros: its names become other texts. -/
inductive Expands (table : MacroTable) : List String → String → String → Prop where
  | whole {active : List String} {expression : String} {image : String → String}
      (each : ∀ name ∈ names expression, Becomes table active name (image name)) :
      Expands table active expression
        (String.ofList (rendered (fun name => (image name).toList) none expression.toList))

/-- A name stays, or becomes the expansion of its macro's value in parentheses. -/
inductive Becomes (table : MacroTable) : List String → String → String → Prop where
  | kept {active : List String} {name : String}
      (stays : table.isObjectLike name = false ∨ name ∈ active ∨ maxExpansions ≤ active.length) :
      Becomes table active name name
  | expanded {active : List String} {name inner : String} {definition : Macro}
      (found : table.find? name = some definition) (objectLike : definition.parameters = none)
      (outside : name ∉ active) (shallow : active.length < maxExpansions)
      (inside : Expands table (name :: active) definition.value inner) :
      Becomes table active name (if inner.isEmpty then "" else "(" ++ inner ++ ")")

end

theorem replacement_other (other : table.isObjectLike name = false) (n : Nat)
    (enclosing : List String) : table.replacement n enclosing name = name := by
  grind [isObjectLike, replacement]

theorem replacement_object {defn : Macro} (found : table.find? name = some defn)
    (objectLike : defn.parameters = none) (n : Nat) (enclosing : List String) :
    table.replacement n enclosing name =
      if name ∈ enclosing then name
      else
        let inner := table.expandWithin n (name :: enclosing) defn.value
        if inner.isEmpty then "" else "(" ++ inner ++ ")" := by
  obtain ⟨_, value, params⟩ := defn
  simp_all [replacement]

theorem exists_object (objectLike : table.isObjectLike name) :
    ∃ defn, table.find? name = some defn ∧ defn.parameters = none := by
  simp_all [isObjectLike, Option.any_eq_true]

/-- Every expression has an expansion. The induction is on the number of macros that may still
be entered. -/
theorem expands_expandWithin (room : enclosing.length + depth = maxExpansions) :
    Expands table enclosing expr (table.expandWithin depth enclosing expr) := by
  induction depth generalizing enclosing expr with
  | zero =>
    have whole := @Expands.whole table enclosing expr (fun name => name) fun name _ =>
      .kept (.inr (.inr (Nat.le_of_eq room.symm)))
    rwa [rendered_self fun _ _ => rfl, String.ofList_toList] at whole
  | succ n ih =>
    rw [← @String.ofList_toList (table.expandWithin _ _ _), toList_expandWithin]
    refine .whole fun name _ => ?_
    cases isObject : table.isObjectLike name with
    | false =>
      rw [replacement_other isObject]
      exact .kept (.inl isObject)
    | true =>
      obtain ⟨defn, found, objectLike⟩ := exists_object isObject
      rw [replacement_object found objectLike]
      split
      next enclosed => exact .kept (.inr (.inl enclosed))
      · next outside =>
        have deeper : (name :: enclosing).length + n = maxExpansions := by
          rw [length_cons]
          omega
        exact .expanded found objectLike outside (by omega) (ih deeper)

/-! Expansion to the end. -/

/-- An object-like macro whose value names another one. -/
def Refers (table : MacroTable) (name other : String) : Prop :=
  ∃ definition, table.find? name = some definition ∧ definition.parameters = none ∧
    other ∈ names definition.value ∧ table.isObjectLike other = true

/-- Tables whose object-like macros have no cycle and no long chain. -/
structure Shallow (table : MacroTable) : Prop where
  acyclic : ∀ name, ¬Relation.TransGen table.Refers name name
  short : ∀ chain : List String, chain.IsChain table.Refers → chain.length ≤ maxExpansions

/-- In a chain without a cycle no macro comes twice. -/
theorem Shallow.not_mem (shallow : table.Shallow)
    (chain : (name :: enclosing).IsChain fun later earlier => table.Refers earlier later) :
    name ∉ enclosing := by
  intro mem
  have reached : (name :: enclosing).Pairwise fun later earlier =>
      Relation.TransGen table.Refers earlier later := by
    exact isChain_iff_pairwise.mp (chain.imp fun _ _ => .single)
  exact shallow.acyclic name ((pairwise_cons.mp reached).1 name mem)

theorem names_expandWithin (shallow : table.Shallow)
    (room : enclosing.length + depth = maxExpansions)
    (chained : ∀ name ∈ names expr, table.isObjectLike name →
      (name :: enclosing).IsChain fun later earlier => table.Refers earlier later) :
    ∀ name ∈ names (table.expandWithin depth enclosing expr),
      table.isObjectLike name = false := by
  induction depth generalizing enclosing expr with
  | zero =>
    intro name mem
    refine Bool.eq_false_iff.mpr fun isObject => ?_
    have short := shallow.short _ (isChain_reverse.mpr (chained name mem isObject))
    rw [length_reverse, length_cons] at short
    omega
  | succ n ih =>
    have images : ∀ name ∈ names expr,
        Leaves name (table.replacement n enclosing name).toList ∧
          ∀ other ∈ names (table.replacement n enclosing name),
            table.isObjectLike other = false := by
      intro name mem
      cases isObject : table.isObjectLike name with
      | false =>
        rw [replacement_other isObject, names, namesFrom_self mem]
        exact ⟨.same, by simpa using isObject⟩
      | true =>
        obtain ⟨defn, found, objectLike⟩ := exists_object isObject
        have chain := chained name mem isObject
        have inner := @ih (name :: enclosing) defn.value (by rw [length_cons]; omega)
          fun other mentioned isOther =>
            .cons_cons ⟨defn, found, objectLike, mentioned, isOther⟩ chain
        rw [replacement_object found objectLike, if_neg (shallow.not_mem chain)]
        generalize table.expandWithin n (name :: enclosing) defn.value = inside at inner
        have shape : ("(" ++ inside ++ ")").toList = '(' :: (inside.toList ++ [')']) := by simp
        dsimp only
        split
        · exact ⟨.nothing, by rw [names, String.toList_empty, namesFrom_nil]; simp⟩
        · rw [names, shape, namesFrom_inside]
          exact ⟨.bracketed _, inner⟩
    rw [names, toList_expandWithin, namesFrom_rendered (fun name mem => (images name mem).1)
      fun _ => rfl]
    intro name mem
    obtain ⟨source, listed, found⟩ := mem_flatMap.mp mem
    exact (images source listed).2 name found

theorem expand_self (plain : ∀ name ∈ names expr, table.isObjectLike name = false) :
    table.expand expr = expr := by
  rw [← String.toList_inj, expand, show maxExpansions = 31 + 1 from rfl, toList_expandWithin]
  exact rendered_self fun name mem => by rw [replacement_other (plain name mem)]

/-- Expansion comes to an end for every table and every expression. If the object-like macros have
no cycle and no chain longer than the limit, no name of the result is that of one of them, and
expanding the result again changes nothing. -/
theorem expand_complete (table : MacroTable) (expression : String) :
    Expands table [] expression (table.expand expression) ∧
      (table.Shallow →
        (∀ name ∈ names (table.expand expression), table.isObjectLike name = false) ∧
          table.expand (table.expand expression) = table.expand expression) := by
  refine ⟨expands_expandWithin rfl, fun shallow => ?_⟩
  have plain := @names_expandWithin table [] maxExpansions expression shallow rfl
    fun name _ _ => .singleton name
  exact ⟨plain, expand_self plain⟩

theorem shallow_nestedMacros : nestedMacros.Shallow := by
  have refers {name other : String} (refers : nestedMacros.Refers name other) :
      name = "W" ∧ other = "D" := by
    obtain ⟨defn, found, -, mem, -⟩ := refers
    rcases find?_nestedMacros found with ⟨rfl, rfl⟩ | ⟨rfl, rfl⟩
    · rw [show names "D+1" = ["D"] by decide +kernel] at mem
      exact ⟨rfl, mem_singleton.mp mem⟩
    · rw [show names "2" = [] by decide +kernel] at mem
      cases mem
  refine ⟨fun name cycle => ?_, fun chain isChain => ?_⟩
  · grind
  · rcases chain with - | ⟨first, - | ⟨second, - | ⟨third, others⟩⟩⟩
    · exact Nat.zero_le _
    · exact show 1 ≤ 32 by decide
    · exact show 2 ≤ 32 by decide
    grind

/-- A macro inside another one, next to a number that ends like its name. -/
theorem expand_complete_nested :
    nestedMacros.expand "2W-W" = "2W-((2)+1)" ∧ nestedMacros.expand "2W-((2)+1)" = "2W-((2)+1)" := by
  have once : nestedMacros.expand "2W-W" = "2W-((2)+1)" := by decide +kernel
  grind [expand_complete, shallow_nestedMacros]

end MacroTable

end WebShader.Conditional
