import WebShader.Include.Line
import WebShader.Proofs.Conditional.Selection
import WebShader.Proofs.Text.Reading
import WebShader.Proofs.Token.FrontKind

/-!
Contract: files whose branches depend on the definedness of names only.

Owns: what a line of such a file says and how it is written, the nesting of its
groups, and what the two passes over it read from a line.

A line is described by its characters. The expansion of includes reads it with
readers, conditional compilation by cutting off comments and splitting words;
for each kind of line both are shown to find what it says.
-/

namespace WebShader.Include

open List Text Reader Conditional

variable {c : Char} {arg front rest : List Char} {keyword name : String}

/-- What a line says. -/
inductive Command where
  | test (wanted : Bool) (name : String)
  | otherwise
  | endGroup
  | define (name : String)
  | undefine (name : String)
  | including
  | text
  deriving DecidableEq, Repr

def reserved : List String :=
  ["if", "ifdef", "ifndef", "elif", "else", "endif", "define", "undef", "include"]

def testKeyword (wanted : Bool) : String :=
  if wanted then "ifdef" else "ifndef"

/-- A line that gives a directive: a hash among blanks, a keyword, and an
argument that does not go on with the keyword. -/
structure Gives (line : List Char) (keyword : String) (argument : List Char) : Prop where
  shape : ∃ before between, before.all isBlank = true ∧ between.all isBlank = true ∧
    line = before ++ '#' :: (between ++ (keyword.toList ++ argument))
  apart : argument.head?.any isWord = false

/-- An argument that has a name after blanks, and a rest that does not go on with the name. -/
structure Names (argument : List Char) (name : String) (rest : List Char) : Prop where
  shape : ∃ gap, gap ≠ [] ∧ gap.all isBlank = true ∧ argument = gap ++ (name.toList ++ rest)
  named : Token.isName name.toList = true
  apart : rest.head?.any isWord = false

/-- Nothing but a blank or a comment comes right after a name. -/
def EndsName (rest : List Char) : Prop :=
  (withoutComments rest).head?.all isBlank = true

/-- How a command is written. A line without a hash is text, and so is a
directive of any keyword that is not reserved. -/
def Command.Written (line : List Char) : Command → Prop
  | .test wanted name => ∃ argument rest,
      Gives line (testKeyword wanted) argument ∧ Names argument name rest ∧ EndsName rest
  | .otherwise => ∃ argument, Gives line "else" argument
  | .endGroup => ∃ argument, Gives line "endif" argument
  | .define name => ∃ argument rest, Gives line "define" argument ∧ Names argument name rest
  | .undefine name => ∃ argument rest, Gives line "undef" argument ∧ Names argument name rest ∧
      EndsName rest
  | .including => ∃ argument, Gives line "include" argument
  | .text => ∀ rest, line.dropWhile isBlank = '#' :: rest →
      String.ofList ((rest.dropWhile isBlank).takeWhile isWord) ∉ reserved

structure ScriptLine extends Conditional.SourceLine where
  command : Command
  written : command.Written text.toList

/-- Whether groups are closed and divided at most once. The open groups are
given by whether they have been divided, the innermost first. -/
def nests : List Bool → List Command → Bool
  | isDivided, [] => isDivided.isEmpty
  | isDivided, .test _ _ :: rest => nests (false :: isDivided) rest
  | false :: outer, .otherwise :: rest => nests (true :: outer) rest
  | _, .otherwise :: _ => false
  | _ :: outer, .endGroup :: rest => nests outer rest
  | [], .endGroup :: _ => false
  | isDivided, _ :: rest => nests isDivided rest

structure Script where
  lines : List ScriptLine
  present : lines ≠ []
  nested : nests [] (lines.map ScriptLine.command) = true

def Script.source (script : Script) : String :=
  unlines (script.lines.map fun line => line.text)

theorem Script.lines_source (script : Script) :
    Text.lines script.source = script.lines.map fun line => line.text := by
  apply lines_unlines (by simpa using script.present)
  intro piece mem
  obtain ⟨line, -, rfl⟩ := mem_map.mp mem
  exact line.single

/-! Characters. -/

def blankCodes : List Nat :=
  [9, 10, 11, 12, 13, 28, 29, 30, 31, 32, 0x85, 0xA0, 0x1680, 0x2000, 0x2001, 0x2002, 0x2003,
   0x2004, 0x2005, 0x2006, 0x2007, 0x2008, 0x2009, 0x200A, 0x2028, 0x2029, 0x202F, 0x205F, 0x3000]

theorem mem_blankCodes (blank : isBlank c) : c.toNat ∈ blankCodes := by
  simp only [isBlank, Bool.or_eq_true, Bool.and_eq_true, decide_eq_true_eq, beq_iff_eq] at blank
  simp only [blankCodes, mem_cons]
  omega

theorem isWord_of_isBlank (blank : isBlank c) : isWord c = false := by
  have apart : (blankCodes.all fun code => !isWord (Char.ofNat code)) := by decide +kernel
  have here := all_eq_true.mp apart _ (mem_blankCodes blank)
  simpa using here

theorem isBlank_of_isWord (word : isWord c) : isBlank c = false := by grind [isWord_of_isBlank]

theorem reserved_words (known : keyword ∈ reserved) :
    keyword.toList ≠ [] ∧ keyword.toList.all isWord := by
  have all : (reserved.all fun keyword =>
      !keyword.toList.isEmpty && keyword.toList.all isWord) := by decide
  grind

/-- A name starts with a character that is neither blank nor a digit. -/
theorem Names.start (names : Names arg name rest) :
    ∃ c others, name.toList = c :: others ∧ isNameStart c ∧ isBlank c = false ∧
      others.all isWord := by
  have named := names.named
  simp only [Token.isName, Bool.and_eq_true] at named
  obtain ⟨c, others, shape, first⟩ := Token.startsName_head named.1
  rw [shape, all_cons, Bool.and_eq_true] at named
  exact ⟨c, others, shape, first, isBlank_of_isWord (Token.nameStart_word first), named.2.2⟩

/-! Readers on directives. -/

theorem hash_eq_some {line tail : List Char} {value : Unit}
    (reads : Line.hash.read? line = some (value, tail)) :
    ∃ rest, line.dropWhile isBlank = '#' :: rest ∧ tail = rest.dropWhile isBlank := by
  obtain ⟨⟨_, rest⟩, mark, further⟩ := Option.bind_eq_some_iff.mp reads
  exact ⟨rest, literal_eq_some mark, (congrArg Prod.snd (Option.some.inj further)).symm⟩

section Tails

variable {line tail : List Char} (reads : Line.hash.read? line = some ((), tail))

include reads

theorem read?_namedDirective (keyword : String) :
    (Line.namedDirective keyword).read? line =
      ((literal keyword).read? tail).bind fun found =>
        (someBlanks.read? found.2).bind fun next => word.read? next.2 := by
  rw [Line.namedDirective, read?_bind, reads]
  rfl

omit reads in
/-- Blanks after a keyword end the first word. -/
theorem takeWhile_of_gap {after : List Char} {first second : Unit} (known : keyword ∈ reserved)
    (opens : (literal keyword).read? tail = some (first, rest))
    (gap : someBlanks.read? rest = some (second, after)) :
    tail.takeWhile isWord = keyword.toList := by
  have blank := (someBlanks_eq_some gap).2
  have apart : rest.head?.any isWord = false := by
    cases rest with
    | nil => rfl
    | cons c others => exact isWord_of_isBlank blank
  rw [literal_eq_some opens]
  exact (takeWhile_run (all_eq_true.mp (reserved_words known).2) apart).1

/-- A directive is read only if its keyword is the whole first word. -/
theorem read?_namedDirective_eq_none (known : keyword ∈ reserved)
    (other : tail.takeWhile isWord ≠ keyword.toList) :
    (Line.namedDirective keyword).read? line = none := by
  rw [read?_namedDirective reads]
  refine Option.bind_eq_none_iff.mpr fun found opens => ?_
  refine Option.bind_eq_none_iff.mpr fun next gap => ?_
  exact absurd (takeWhile_of_gap known opens gap) other

theorem read?_quotedPath_eq_none (other : tail.takeWhile isWord ≠ "include".toList) :
    Line.quotedPath.read? line = none := by
  rw [Line.quotedPath, read?_bind, reads, Option.bind_some]
  refine Option.bind_eq_none_iff.mpr fun found opens => ?_
  refine Option.bind_eq_none_iff.mpr fun next gap => ?_
  exact absurd (takeWhile_of_gap (by decide) opens gap) other

theorem read?_groupWord_eq_none
    (other : String.ofList (tail.takeWhile isWord) ∉ ["if", "elif", "else", "endif"]) :
    Line.groupWord.read? line = none := by
  rw [Line.groupWord, read?_bind, reads, Option.bind_some]
  refine Option.bind_eq_none_iff.mpr fun found begins => ?_
  obtain ⟨word, rest⟩ := found
  have spelled : word = String.ofList (tail.takeWhile isWord) := by
    rw [← (someRun_eq_some begins).1, String.ofList_toList]
  split <;> simp_all
  rfl

end Tails

theorem read?_directive (line : List Char) :
    Line.directive.read? line = (((Line.namedDirective "ifdef").read? line).map (fun found =>
          (Line.group (.testDefined found.1 true), found.2)) <|>
        ((Line.namedDirective "ifndef").read? line).map (fun found =>
          (Line.group (.testDefined found.1 false), found.2)) <|>
        Line.groupWord.read? line <|>
        ((Line.namedDirective "define").read? line).map (fun found =>
          (Line.define found.1, found.2)) <|>
        ((Line.namedDirective "undef").read? line).map (fun found =>
          (Line.undefine found.1, found.2)) <|>
        (Line.quotedPath.read? line).map fun found => (Line.include found.1, found.2)) := by
  simp only [Line.directive, read?_orElse, read?_map]

theorem Names.read? (names : Names arg name rest) :
    ((someBlanks.read? arg).bind fun next => word.read? next.2) =
      some (name, rest) := by
  obtain ⟨c, others, spelled, -, solid, -⟩ := names.start
  obtain ⟨⟨gap, present, blank, rfl⟩, named, apart⟩ := names
  simp only [Token.isName] at named
  grind [read?_someBlanks, word, read?_someRun, String.ofList_toList]

namespace Gives

open Reader Conditional

variable {line arg : List Char} {keyword : String} (gives : Gives line keyword arg)

include gives

theorem takeWhile_isWord (known : keyword ∈ reserved) :
    (keyword.toList ++ arg).takeWhile isWord = keyword.toList ∧
      (keyword.toList ++ arg).dropWhile isWord = arg :=
  takeWhile_run (all_eq_true.mp (reserved_words known).2) gives.apart

/-- What stands behind the blanks on both sides of the hash. -/
theorem dropWhile_isBlank (known : keyword ∈ reserved) :
    ∃ rest, line.dropWhile isBlank = '#' :: rest ∧
      rest.dropWhile isBlank = keyword.toList ++ arg := by
  obtain ⟨before, between, blankBefore, blankBetween, rfl⟩ := gives.shape
  obtain ⟨present, words⟩ := reserved_words known
  obtain ⟨c, others, spelled⟩ := exists_cons_of_ne_nil present
  rw [spelled, all_cons, Bool.and_eq_true] at words
  have solid : (keyword.toList ++ arg).head?.any isBlank = false := by
    rw [spelled]
    exact isBlank_of_isWord words.1
  exact ⟨_, (takeWhile_run (all_eq_true.mp blankBefore) rfl).2,
    (takeWhile_run (all_eq_true.mp blankBetween) solid).2⟩

theorem read?_hash (known : keyword ∈ reserved) :
    Line.hash.read? line = some ((), keyword.toList ++ arg) := by
  obtain ⟨rest, mark, further⟩ := gives.dropWhile_isBlank known
  have opens := read?_literal "#" rest
  simp_all [Line.hash, read?_bind, read?_blanks]

theorem read?_named (known : keyword ∈ reserved) (names : Names arg name rest) :
    (Line.namedDirective keyword).read? line = some (name, rest) := by
  rw [read?_namedDirective (gives.read?_hash known), read?_literal]
  exact names.read?

/-- A directive of another keyword is not read. -/
theorem read?_other (known : keyword ∈ reserved) {directive : String}
    (wanted : directive ∈ reserved) (ne : keyword ≠ directive) :
    (Line.namedDirective directive).read? line = none := by
  apply read?_namedDirective_eq_none (gives.read?_hash known) wanted
  rw [(gives.takeWhile_isWord known).1]
  exact fun same => ne (String.toList_inj.mp same)

theorem read?_groupWord (known : keyword ∈ reserved)
    (other : keyword ∉ ["if", "elif", "else", "endif"]) : Line.groupWord.read? line = none := by
  apply read?_groupWord_eq_none (gives.read?_hash known)
  rwa [(gives.takeWhile_isWord known).1, String.ofList_toList]

theorem read?_word (known : keyword ∈ reserved) :
    word.read? (keyword.toList ++ arg) = some (keyword, arg) := by
  obtain ⟨present, words⟩ := reserved_words known
  have read := read?_someRun present (all_eq_true.mp words) gives.apart
  rwa [String.ofList_toList] at read

end Gives

/-! What the expansion reads. -/

theorem ofText_of_read? {line : String} {found : Line} {rest : List Char}
    (reads : Line.directive.read? line.toList = some (found, rest)) : Line.ofText line = found := by
  rw [Line.ofText, reads]

section Expansion

variable {line name : String}

theorem ofText_test {wanted : Bool} (written : (Command.test wanted name).Written line.toList) :
    Line.ofText line = .group (.testDefined name wanted) := by
  obtain ⟨arg, rest, gives, names, -⟩ := written
  refine @ofText_of_read? _ _ rest ?_
  cases wanted with
  | true =>
    have here : (Line.namedDirective "ifdef").read? line.toList = some (name, rest) :=
      gives.read?_named (by decide) names
    rw [read?_directive, here]
    rfl
  | false =>
    have first : (Line.namedDirective "ifdef").read? line.toList = none :=
      gives.read?_other (by decide) (by decide) (by decide)
    have here : (Line.namedDirective "ifndef").read? line.toList = some (name, rest) :=
      gives.read?_named (by decide) names
    rw [read?_directive, first, here]
    rfl

section Behind

variable {keyword : String} {arg : List Char} (gives : Gives line.toList keyword arg)
  (known : keyword ∈ reserved) (notIfdef : keyword ≠ "ifdef") (notIfndef : keyword ≠ "ifndef")

include gives known notIfdef notIfndef

/-- Behind the tests of names, the readers for other directives have their turn. -/
theorem read?_directive_behind :
    Line.directive.read? line.toList = (Line.groupWord.read? line.toList <|>
        ((Line.namedDirective "define").read? line.toList).map (fun found =>
          (Line.define found.1, found.2)) <|>
        ((Line.namedDirective "undef").read? line.toList).map (fun found =>
          (Line.undefine found.1, found.2)) <|>
        (Line.quotedPath.read? line.toList).map fun found => (Line.include found.1, found.2)) := by
  rw [read?_directive, gives.read?_other known (by decide) notIfdef,
    gives.read?_other known (by decide) notIfndef]
  rfl

end Behind

theorem ofText_groupWord {group : GroupLine} (gives : Gives line.toList keyword arg)
    (listed : (keyword, group) ∈ [("else", .otherwise), ("endif", .endGroup)]) :
    Line.ofText line = .group group := by
  refine @ofText_of_read? _ _ arg ?_
  simp only [mem_cons, not_mem_nil, or_false] at listed
  rcases listed with ⟨rfl, rfl⟩ | ⟨rfl, rfl⟩ <;>
  · rw [read?_directive_behind gives (by decide) (by decide) (by decide), Line.groupWord,
      read?_bind, gives.read?_hash (by decide), Option.bind_some, read?_bind,
      gives.read?_word (by decide)]
    rfl

theorem ofText_otherwise (written : Command.otherwise.Written line.toList) :
    Line.ofText line = .group .otherwise :=
  written.elim fun _ gives => ofText_groupWord gives (by simp)

theorem ofText_endGroup (written : Command.endGroup.Written line.toList) :
    Line.ofText line = .group .endGroup :=
  written.elim fun _ gives => ofText_groupWord gives (by simp)

theorem ofText_define (written : (Command.define name).Written line.toList) :
    Line.ofText line = .define name := by
  obtain ⟨arg, rest, gives, names⟩ := written
  refine @ofText_of_read? _ _ rest ?_
  rw [read?_directive_behind gives (by decide) (by decide) (by decide),
    gives.read?_groupWord (by decide) (by decide), gives.read?_named (by decide) names]
  rfl

theorem ofText_undefine (written : (Command.undefine name).Written line.toList) :
    Line.ofText line = .undefine name := by
  obtain ⟨arg, rest, gives, names, -⟩ := written
  refine @ofText_of_read? _ _ rest ?_
  rw [read?_directive_behind gives (by decide) (by decide) (by decide),
    gives.read?_groupWord (by decide) (by decide),
    gives.read?_other (by decide) (by decide) (by decide), gives.read?_named (by decide) names]
  rfl

/-- The path of an include is taken from its line. -/
theorem mem_of_quotedPath {text : List Char} {path : String}
    (reads : Line.quotedPath.read? text = some (path, rest)) (mem : c ∈ path.toList) :
    c ∈ text := by
  obtain ⟨⟨_, afterHash⟩, hash, reads⟩ := Option.bind_eq_some_iff.mp reads
  obtain ⟨⟨_, afterKeyword⟩, keyword, reads⟩ := Option.bind_eq_some_iff.mp reads
  obtain ⟨⟨_, afterGap⟩, gap, reads⟩ := Option.bind_eq_some_iff.mp reads
  obtain ⟨⟨_, afterQuote⟩, quote, reads⟩ := Option.bind_eq_some_iff.mp reads
  obtain ⟨⟨found, afterPath⟩, run, reads⟩ := Option.bind_eq_some_iff.mp reads
  obtain ⟨⟨_, afterClosing⟩, closing, reads⟩ := Option.bind_eq_some_iff.mp reads
  obtain rfl : found = path := congrArg Prod.fst (Option.some.inj reads)
  obtain ⟨further, mark, rfl⟩ := hash_eq_some hash
  have inside : c ∈ afterQuote := by
    rw [(someRun_eq_some run).1] at mem
    exact takeWhile_subset _ mem
  have behindHash : c ∈ further :=
    (dropWhile_suffix _).subset ((suffix_of_literal keyword).subset
      ((someBlanks_eq_some gap).1.subset ((suffix_of_literal quote).subset inside)))
  exact (dropWhile_suffix _).subset (mark ▸ mem_cons_of_mem _ behindHash)

/-- A line that includes something is read with a path in quotes, or as plain. -/
theorem ofText_including (written : Command.including.Written line.toList) :
    (∃ path, Line.ofText line = .include path ∧ ∀ c ∈ path.toList, c ∈ line.toList) ∨
      Line.ofText line = .plain := by
  obtain ⟨arg, gives⟩ := written
  have last : Line.directive.read? line.toList =
      (Line.quotedPath.read? line.toList).map fun found => (Line.include found.1, found.2) := by
    rw [read?_directive_behind gives (by decide) (by decide) (by decide),
      gives.read?_groupWord (by decide) (by decide),
      gives.read?_other (by decide) (by decide) (by decide),
      gives.read?_other (by decide) (by decide) (by decide)]
    rfl
  cases found : Line.quotedPath.read? line.toList with
  | none =>
    rw [found] at last
    exact .inr (by rw [Line.ofText, last]; rfl)
  | some result => grind [ofText_of_read?, mem_of_quotedPath]

theorem ofText_text (written : Command.text.Written line.toList) : Line.ofText line = .plain := by
  have reads : Line.directive.read? line.toList = none := by
    cases hash : Line.hash.read? line.toList with
    | none =>
      simp only [Line.directive, read?_orElse, read?_map, Line.namedDirective,
        Line.groupWord, Line.quotedPath, read?_bind, hash]
      rfl
    | some found =>
      obtain ⟨rest, mark, tail⟩ := hash_eq_some hash
      have outside := written rest mark
      rw [← tail] at outside
      have other : ∀ keyword ∈ reserved, found.2.takeWhile isWord ≠ keyword.toList := by
        intro keyword known same
        rw [same, String.ofList_toList] at outside
        exact outside known
      have unnamed : ∀ keyword ∈ reserved, (Line.namedDirective keyword).read? line.toList = none :=
        fun keyword known => read?_namedDirective_eq_none hash known (other keyword known)
      rw [read?_directive, unnamed _ (by decide), unnamed _ (by decide), unnamed _ (by decide),
        unnamed _ (by decide), read?_quotedPath_eq_none hash (other _ (by decide)),
        read?_groupWord_eq_none hash]
      · rfl
      grind [reserved]
  rw [Line.ofText, reads]

end Expansion

/-! What conditional compilation reads. -/

section Comments

open Conditional

theorem withoutComments_append (clean : '/' ∉ front) (rest : List Char) :
    withoutComments (front ++ rest) = front ++ withoutComments rest := by
  rw [withoutComments]
  induction front with
  | nil => rfl
  | cons c others ih =>
    simp only [mem_cons, not_or] at clean
    rw [cons_append, blankBlockComments, cutLineComment, ih clean.2, cons_append]
    · exact fun further same => absurd same.symm clean.1
    grind

/-- Taking comments off puts no word character in front. -/
theorem withoutComments_apart {text : List Char} (apart : text.head?.any isWord = false) :
    (withoutComments text).head?.any isWord = false := by
  have blanked : (blankBlockComments text).head?.any isWord = false := by
    fun_cases blankBlockComments text <;> simp_all
    decide
  rw [withoutComments]
  generalize blankBlockComments text = other at blanked
  fun_cases cutLineComment other <;> simp_all

end Comments

section Arguments

variable {arg rest : List Char} {name : String} (names : Names arg name rest)

include names

/-- The argument as conditional compilation has it: the name comes first. -/
theorem Names.trim_withoutComments :
    trim (String.ofList (withoutComments arg)) =
      String.ofList (name.toList ++ trimEndWhere isBlank (withoutComments rest)) := by
  obtain ⟨c, others, spelled, -, solid, -⟩ := names.start
  obtain ⟨⟨gap, present, blank, rfl⟩, named, apart⟩ := names
  simp only [Token.isName, Bool.and_eq_true] at named
  have blanks := all_eq_true.mp blank
  have words := all_eq_true.mp named.2
  have clean : '/' ∉ gap ++ name.toList := by
    intro mem
    rcases mem_append.mp mem with inGap | inName
    · exact absurd (blanks _ inGap) (by decide)
    · exact absurd (words _ inName) (by decide)
  have head : (name.toList ++ withoutComments rest).head?.any isBlank = false := by
    rw [spelled]
    exact solid
  rw [← append_assoc, withoutComments_append clean, append_assoc, trim,
    String.toList_ofList, trimWhere, (takeWhile_run blanks head).2,
    trimEndWhere_append fun c mem => isBlank_of_isWord (words c mem)]

theorem Names.firstWord (ends : EndsName rest) :
    Conditional.State.firstWord (trim (String.ofList (withoutComments arg))) =
      name := by
  obtain ⟨c, others, spelled, -, solid, words⟩ := names.start
  have stops : (trimEndWhere isBlank (withoutComments rest)).head?.any (!isBlank ·) =
      false := by
    rw [EndsName] at ends
    rcases @head?_trimEndWhere isBlank (withoutComments rest) with none | same
    · rw [none]; rfl
    · rw [same]
      cases found : (withoutComments rest).head? with
      | none => rfl
      | some c => simpa [found] using ends
  have taken := (@Reader.takeWhile_run (!isBlank ·) others _
    (fun d mem => by simp [isBlank_of_isWord (all_eq_true.mp words d mem)]) stops).1
  rw [names.trim_withoutComments, Conditional.State.firstWord, Text.words, String.toList_ofList,
    spelled, cons_append, blankSeparated]
  split
  next shape => simp_all
  next shape =>
    rw [dropWhile_cons_of_neg (by simp [solid])] at shape
    obtain ⟨rfl, rfl⟩ := List.cons.inj shape
    rw [taken, ← spelled, map_cons, headD_cons, String.ofList_toList]

theorem Names.ofArgument? :
    ∃ defn, Conditional.Macro.ofArgument?
        (trim (String.ofList (withoutComments arg))) = some defn ∧
      defn.name = name := by
  obtain ⟨c, others, spelled, start, -, words⟩ := names.start
  have stops : (trimEndWhere isBlank (withoutComments rest)).head?.any isWord = false := by
    rcases @head?_trimEndWhere isBlank (withoutComments rest) with none | same
    · rw [none]; rfl
    · rw [same, withoutComments_apart names.apart]
  have taken := (takeWhile_run (all_eq_true.mp words) stops).1
  rw [names.trim_withoutComments, Conditional.Macro.ofArgument?, String.toList_ofList, spelled,
    cons_append]
  simp only [start, Bool.not_true, Bool.false_eq_true, if_false, taken, ← spelled,
    String.ofList_toList]
  split <;> exact ⟨_, rfl, rfl⟩

end Arguments

section Conditional

variable {line : String}

theorem Gives.ofLine? (gives : Gives line.toList keyword arg) (known : keyword ∈ reserved) :
    Conditional.Directive.ofLine? line =
      some ⟨keyword, trim (String.ofList (withoutComments arg))⟩ := by
  obtain ⟨rest, mark, further⟩ := gives.dropWhile_isBlank known
  obtain ⟨taken, left⟩ := gives.takeWhile_isWord known
  rw [Conditional.Directive.ofLine?, mark]
  simp only [further, taken, left]
  rw [if_neg (by simpa using (reserved_words known).1), String.ofList_toList]

/-- A line of text holds no directive, or one of a keyword that is not reserved. -/
theorem ofLine?_text (written : Command.text.Written line.toList)
    {directive : Conditional.Directive}
    (reads : Conditional.Directive.ofLine? line = some directive) :
    directive.keyword ∉ reserved := by
  rw [Conditional.Directive.ofLine?] at reads
  split at reads
  next rest mark =>
    dsimp only at reads
    split at reads
    · cases reads
    · obtain rfl := Option.some.inj reads
      exact written rest mark
  · cases reads

end Conditional

end WebShader.Include
