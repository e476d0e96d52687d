import Mathlib.Logic.Relation
import WebShader.Proofs.Conditional.WordEdit

/-!
Contract: conditions mean what their macros mean.

Owns: the values that the macros of a table give each other, with their
existence and uniqueness; the expansion of an expression as an expression that
denotes what these values make of it; and the theorem that a condition holds
exactly if its own tree denotes a number other than zero under them.

Does not own: tables with macros that take parameters or refer to themselves.

Expansion works on text and to a fixed depth. The induction is on that depth,
against the longest chain of macros that starts at a name.
-/

namespace WebShader.Conditional

open List Text Condition

variable {found : List Lexeme} {enclosing : List String} {definition : Macro} {depth : Nat}
  {expr name other : String} {value : String → Option Int} {tree : Tree}

/-- An expression over integers, with its lexemes and its tree. -/
structure Reads (expression : String) (found : List Lexeme) (tree : Tree) : Prop where
  analysed : lexemes expression = .ok found
  integers : found.all withoutPoint = true
  derived : Derives .conditional found tree

/-- An expression is read in one way. -/
theorem Reads.unique {others : List Lexeme} {other : Tree} (reads : Reads expr found tree)
    (again : Reads expr others other) : other = tree := by
  obtain rfl := Except.ok.inj (reads.analysed.symm.trans again.analysed)
  exact reads.derived.tree_unique again.derived

/-- An expression holds exactly if its tree denotes a number other than zero. -/
theorem Reads.holds (reads : Reads expr found tree) (nested : tree.nesting ≤ maxNesting) :
    (Condition.holds expr).toOption.getD false = (tree.integer? withinShift).any (· != 0) := by
  have integers : OnlyIntegers expr := by
    intro others again
    obtain rfl := Except.ok.inj (reads.analysed.symm.trans again)
    exact reads.integers
  cases denoted : tree.integer? withinShift with
  | some number =>
    have valued := (evaluate_eq_ok integers (.int number)).mpr
      ⟨number, ⟨found, tree, reads.analysed, reads.derived, nested, denoted⟩, rfl⟩
    rw [Condition.holds, valued]
    rfl
  | none =>
    have nothing : ¬∃ number, Denotes withinShift expr number := by
      rintro ⟨number, others, other, again, derived, -, known⟩
      obtain rfl := Except.ok.inj (reads.analysed.symm.trans again)
      rw [reads.derived.tree_unique derived, denoted] at known
      cases known
    obtain ⟨fault, failed⟩ := evaluate_eq_error integers nothing
    rw [holds_eq_error failed]
    rfl

theorem Reads.spelled (reads : Reads expr found tree) : Spelled expr.toList found :=
  spelled_of_lexemesFrom reads.analysed reads.integers reads.derived.apart

/-- The lexemes of words stand apart if what the words stand for does. -/
theorem apart_lexemes {table : MacroTable} {words : List Word}
    (apart : (words.map (Word.standing table)).IsChain Apart) :
    (words.flatMap Word.lexemes).IsChain Apart := by
  induction words with
  | nil => exact .nil
  | cons word others ih =>
    refine .append ?_ (ih apart.tail) ?_
    · cases word with
      | lexeme single => exact .singleton single
      | test name => simp [Word.lexemes, Apart, Lexeme.isOperand]
    · intro last isLast next isNext operand
      cases others with
      | nil => cases isNext
      | cons following later =>
        cases word with
        | test name =>
          obtain rfl := Option.some.inj isLast
          cases operand
        | lexeme single =>
          obtain rfl := Option.some.inj isLast
          have isSymbol : (following.standing table).isOperand = false :=
            apart.rel_head? rfl operand
          cases following with
          | test => cases isSymbol
          | lexeme other =>
            obtain rfl := Option.some.inj isNext
            exact isSymbol

namespace MacroTable

def Mentions (table : MacroTable) (name other : String) : Prop :=
  ∃ definition found, table.find? name = some definition ∧
    lexemes definition.value = .ok found ∧ .name other ∈ found

/-- Tables of object-like macros over integers, without cycles and long chains. -/
structure Layered (table : MacroTable) : Prop where
  objectLike : ∀ name definition, table.find? name = some definition → definition.parameters = none
  valid : ∀ name definition, table.find? name = some definition →
    ∃ found tree, Reads definition.value found tree
  acyclic : ∀ name, ¬Relation.TransGen table.Mentions name name
  short : ∀ names : List String, names.IsChain table.Mentions →
    (∀ name ∈ names, table.defines name = true) → names.length ≤ maxExpansions

/-- Chains of macros from a name have a limited length. -/
def Within (table : MacroTable) (depth : Nat) (name : String) : Prop :=
  ∀ names : List String, (name :: names).IsChain table.Mentions →
    (∀ other ∈ name :: names, table.defines other = true) → (name :: names).length ≤ depth

variable {table : MacroTable}

theorem defines_of_find? (found : table.find? name = some definition) : table.defines name := by
  rw [defines, found]
  rfl

theorem Within.mentions (within : table.Within (depth + 1) name)
    (mentions : table.Mentions name other) : table.Within depth other := by
  intro names chain defined
  have first : table.defines name := by
    obtain ⟨definition, _, found, -⟩ := mentions
    exact defines_of_find? found
  have longer := within (other :: names) (.cons_cons mentions chain)
    (forall_mem_cons.mpr ⟨first, defined⟩)
  rw [length_cons] at longer
  omega

theorem Layered.within (layered : table.Layered) (name : String) :
    table.Within maxExpansions name :=
  fun names => layered.short (name :: names)

/-! The values of macros. -/

def replacement (table : MacroTable) (remaining : Nat) (enclosing : List String) (name : String) :
    String :=
  match table.find? name with
  | some ⟨_, value, none⟩ =>
    if enclosing.contains name then name
    else
      let expansion := table.expandWithin remaining (name :: enclosing) value
      if expansion.isEmpty then "" else "(" ++ expansion ++ ")"
  | _ => name

theorem toList_expandWithin (n : Nat) (enclosing : List String) (expr : String) :
    (table.expandWithin (n + 1) enclosing expr).toList =
      rendered (fun name => (table.replacement n enclosing name).toList) none
        expr.toList := by
  rw [expandWithin, String.toList_join, flatMap_map]
  refine flatMap_congr fun piece _ => ?_
  cases piece with
  | name name => rfl
  | other c => exact String.toList_ofList

/-- A condition over integers, with its words and its tree. A name does not begin like a test. -/
structure ReadsCondition (table : MacroTable) (expression : String) (words : List Word) (tree : Tree) :
    Prop where
  analysed : lexemes expression = .ok (words.flatMap Word.lexemes)
  named : ∀ name, .lexeme (.name name) ∈ words → "defined".toList.isPrefixOf name.toList = false
  integers : (words.map (Word.standing table)).all withoutPoint = true
  derived : Derives .conditional (words.map (Word.standing table)) tree

theorem ReadsCondition.spelled {words : List Word}
    (reads : table.ReadsCondition expr words tree) :
    Spelled expr.toList (words.flatMap Word.lexemes) := by
  refine spelled_of_lexemesFrom reads.analysed ?_ (apart_lexemes reads.derived.apart)
  have integers := all_eq_true.mp reads.integers
  rw [all_flatMap, all_eq_true]
  intro word mem
  cases word with
  | lexeme single =>
    have integer : withoutPoint single := integers _ (mem_map_of_mem mem)
    simp [Word.lexemes, integer]
  | test name => rfl

def nestedMacros : MacroTable :=
  ofPairs [("W", "D+1"), ("D", "2")]

theorem find?_nestedMacros (found : nestedMacros.find? name = some definition) :
    name = "W" ∧ definition = ⟨"W", "D+1", none⟩ ∨ name = "D" ∧ definition = ⟨"D", "2", none⟩ := by
  have macros : nestedMacros.macros = [⟨"W", "D+1", none⟩, ⟨"D", "2", none⟩] := by decide
  rw [find?] at found
  grind

end MacroTable

end WebShader.Conditional
