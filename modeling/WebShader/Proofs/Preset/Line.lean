import WebShader.Preset.Parser
import WebShader.Preset.Printer
import WebShader.Proofs.Text.Lines
import WebShader.Proofs.Text.Reading

/-!
Contract: what a written line of a preset sets.

Owns: the texts that a line carries without loss, and the setting that is read
from a line that was written for it.

A value in quotes may have any blanks at its ends. A bare one must be its own
trimmed form, and the quotes that it wears itself would be taken off.
-/

namespace WebShader.Preset

open List Text Reader

variable {c : Char} {front key : List Char} {text : String}

/-! Comments. -/

/-- Whether a text stays on its line and starts no comment there. -/
def fitsLine (text : String) : Bool :=
  !text.toList.contains '\n' && !text.toList.contains '#' && !holds text "//"

structure FitsLine (text : List Char) : Prop where
  single : '\n' ∉ text
  unhashed : '#' ∉ text
  unslashed : occursIn ['/', '/'] text = false

theorem fitsLine_iff : fitsLine text ↔ FitsLine text.toList := by
  have slashes : holds text "//" = occursIn ['/', '/'] text.toList := rfl
  rw [fitsLine]
  simp only [Bool.and_eq_true, Bool.not_eq_true', contains_eq_mem, decide_eq_false_iff_not]
  exact ⟨fun ⟨⟨single, unhashed⟩, unslashed⟩ => ⟨single, unhashed, unslashed⟩,
    fun ⟨single, unhashed, unslashed⟩ => ⟨⟨single, unhashed⟩, unslashed⟩⟩

theorem occursIn_slashes_cons (c : Char) (rest : List Char) :
    occursIn ['/', '/'] (c :: rest) =
      ((c == '/' && rest.head? == some '/') || occursIn ['/', '/'] rest) := by
  have flip : ∀ d : Char, ('/' == d) = (d == '/') := fun d => Bool.beq_comm
  rw [occursIn]
  cases rest with
  | nil => simp [List.isPrefixOf]
  | cons d others => simp [List.isPrefixOf, flip]

/-- Slashes on both sides of another character are not two in a row. -/
theorem occursIn_slashes_append {rest : List Char} (other : c ≠ '/') :
    occursIn ['/', '/'] (front ++ c :: rest) =
      (occursIn ['/', '/'] front || occursIn ['/', '/'] rest) := by
  induction front with
  | nil =>
    rw [nil_append, occursIn_slashes_cons]
    simp [other, occursIn]
  | cons d others ih =>
    rw [cons_append, occursIn_slashes_cons, occursIn_slashes_cons, ih, Bool.or_assoc]
    cases others with
    | nil => simp [other]
    | cons e further => rfl

theorem beforeSlashes_eq_self {text : List Char} (unslashed : occursIn ['/', '/'] text = false) :
    beforeSlashes text = text := by
  induction text using beforeSlashes.induct with
  | case1 => rfl
  | case2 rest => simp [occursIn] at unslashed
  | case3 c rest distinct ih => grind [occursIn, beforeSlashes.eq_3]

theorem withoutComment_eq {line : List Char} (fits : FitsLine line) :
    withoutComment line = trimWhere isBlank line := by
  have kept : line.takeWhile (· != '#') = line := by
    have all : ∀ c ∈ line, (c != '#') := by
      intro c mem
      have ne : c ≠ '#' := fun same => fits.unhashed (same ▸ mem)
      simpa using ne
    have whole : (line ++ []).takeWhile (· != '#') = line ++ [].takeWhile (· != '#') :=
      takeWhile_append_of_pos all
    simpa using whole
  rw [withoutComment, beforeSlashes_eq_self fits.unslashed, kept]

theorem fitsLine_nil : FitsLine [] := ⟨by simp, by simp, rfl⟩

theorem FitsLine.join {rest : List Char} (first : FitsLine front) (second : FitsLine rest)
    (other : c ≠ '/') (inLine : c ≠ '\n') (unhashed : c ≠ '#') :
    FitsLine (front ++ c :: rest) where
  single := by simp [first.single, second.single, inLine.symm]
  unhashed := by simp [first.unhashed, second.unhashed, unhashed.symm]
  unslashed := by rw [occursIn_slashes_append other, first.unslashed, second.unslashed]; rfl

/-! Keys and values. -/

/-- A text that can be told from the blanks around it in a line. -/
structure Stands (text : List Char) : Prop where
  fits : FitsLine text
  present : text ≠ []
  first : text.head?.any isBlank = false
  last : text.getLast?.any isBlank = false

theorem Stands.trimmed {text : List Char} (stands : Stands text) : trimWhere isBlank text = text :=
  trimWhere_eq_self stands.first stands.last

theorem quoted_toList (text : String) : (quoted text).toList = '"' :: (text.toList ++ ['"']) := by
  simp [quoted]

theorem stands_quoted (fits : FitsLine text.toList) : Stands (quoted text).toList := by
  have ended : FitsLine (text.toList ++ ['"']) :=
    fits.join fitsLine_nil (by decide) (by decide) (by decide)
  rw [quoted_toList]
  refine ⟨?_, cons_ne_nil _ _, ?_, ?_⟩
  · exact fitsLine_nil.join ended (by decide) (by decide) (by decide)
  · show isBlank '"' = false
    decide
  · rw [← cons_append, getLast?_concat]
    decide

def readValue (text : String) : String :=
  String.ofList (unquote text.toList)

theorem readValue_quoted (text : String) : readValue (quoted text) = text := by
  rw [readValue, quoted_toList, unquote, if_pos (by simp),
    dropLast_concat, String.ofList_toList]

/-- Only quotes on both sides are taken off. -/
theorem readValue_bare (bare : ∀ inner, text ≠ quoted inner) : readValue text = text := by
  have kept : unquote text.toList = text.toList := by
    unfold unquote
    split
    next rest shape =>
      split
      next closed =>
        refine absurd (String.toList_inj.mp ?_) (bare (String.ofList rest.dropLast))
        obtain ⟨inner, rfl⟩ := getLast?_eq_some_iff.mp (beq_iff_eq.mp closed)
        rw [shape, quoted_toList, String.toList_ofList, dropLast_concat]
      · rfl
    · rfl
  rw [readValue, kept, String.ofList_toList]

theorem ne_quoted_of_head (plain : text.toList.head? ≠ some '"') (inner : String) :
    text ≠ quoted inner := by
  rintro rfl
  rw [quoted_toList] at plain
  exact plain rfl

/-! Written lines. -/

theorem cutAtFirst?_append {sep : Char} (rest : List Char) (absent : sep ∉ front) :
    cutAtFirst? sep (front ++ sep :: rest) = some (front, rest) := by
  induction front with
  | nil => simp [cutAtFirst?]
  | cons c others ih => grind [cutAtFirst?]

theorem settingLine_toList (key text : String) :
    (settingLine key text).toList = (key.toList ++ [' ']) ++ '=' :: ' ' :: text.toList := by
  simp [settingLine]

structure IsKey (key : List Char) : Prop where
  stands : Stands key
  unequal : '=' ∉ key

/-- The characters of all keys that a preset does not choose itself. -/
def isKeyCharacter (c : Char) : Bool :=
  isAsciiLetter c || isAsciiDigit c || c == '_'

theorem keyCharacter_plain (inKey : isKeyCharacter c) :
    isBlank c = false ∧ c ≠ '\n' ∧ c ≠ '#' ∧ c ≠ '/' ∧ c ≠ '=' := by
  refine ⟨?_, ?_, ?_, ?_, ?_⟩
  · have bounds : c.toNat = 95 ∨ 48 ≤ c.toNat ∧ c.toNat ≤ 57 ∨ 65 ≤ c.toNat ∧ c.toNat ≤ 122 := by
      simp only [isKeyCharacter, isAsciiLetter, isAsciiDigit, Bool.or_eq_true, Bool.and_eq_true,
        decide_eq_true_eq, beq_iff_eq] at inKey
      rcases inKey with (letter | digit) | rfl
      · omega
      · omega
      · decide
    simp only [isBlank, Bool.or_eq_false_iff, Bool.and_eq_false_iff, decide_eq_false_iff_not,
      beq_eq_false_iff_ne]
    omega
  all_goals
    rintro rfl
    exact absurd inKey (by decide)

theorem IsKey.push (fits : FitsLine key) (first : key.head?.any isBlank = false)
    (unequal : '=' ∉ key) (inKey : isKeyCharacter c) : IsKey (key ++ [c]) := by
  obtain ⟨visible, inLine, unhashed, unslashed, other⟩ := keyCharacter_plain inKey
  refine ⟨⟨fits.join fitsLine_nil unslashed inLine unhashed, by simp, ?_, ?_⟩, ?_⟩
  · cases key with
    | nil => exact visible
    | cons d rest => exact first
  · rw [getLast?_concat]
    exact visible
  · simp [unequal, other.symm]

theorem IsKey.append {ending : List Char} (isKey : IsKey key)
    (plain : ∀ c ∈ ending, isKeyCharacter c) : IsKey (key ++ ending) := by
  induction ending generalizing key with
  | nil =>
    rw [append_nil]
    exact isKey
  | cons c rest ih =>
    rw [List.append_cons]
    exact ih (.push isKey.stands.fits isKey.stands.first isKey.unequal (plain c mem_cons_self))
      fun d later => plain d (mem_cons_of_mem c later)

theorem isKey_of_plain (present : key ≠ []) (plain : ∀ c ∈ key, isKeyCharacter c) :
    IsKey key := by
  obtain ⟨c, rest, rfl⟩ := exists_cons_of_ne_nil present
  have single : IsKey ([] ++ [c]) := .push fitsLine_nil rfl (by simp) (plain c mem_cons_self)
  exact single.append fun d later => plain d (mem_cons_of_mem c later)

section Setting

variable {key text : String} (isKey : IsKey key.toList) (stands : Stands text.toList)

include isKey stands

theorem fitsLine_settingLine : FitsLine (settingLine key text).toList := by
  have value : FitsLine (' ' :: text.toList) :=
    fitsLine_nil.join stands.fits (by decide) (by decide) (by decide)
  have front : FitsLine (key.toList ++ [' ']) :=
    isKey.stands.fits.join fitsLine_nil (by decide) (by decide) (by decide)
  rw [settingLine_toList]
  exact front.join value (by decide) (by decide) (by decide)

theorem trimWhere_settingLine :
    trimWhere isBlank (settingLine key text).toList = (settingLine key text).toList := by
  rw [settingLine_toList]
  apply trimWhere_eq_self
  · obtain ⟨c, rest, shape⟩ := exists_cons_of_ne_nil isKey.stands.present
    have first := isKey.stands.first
    rw [shape] at first ⊢
    exact first
  · obtain ⟨c, rest, shape⟩ := exists_cons_of_ne_nil stands.present
    have last := stands.last
    grind

theorem settingOf?_settingLine :
    settingOf? (settingLine key text).toList = some (key, readValue text) := by
  have keyTrimmed : trimWhere isBlank (key.toList ++ [' ']) = key.toList := by
    obtain ⟨c, rest, shape⟩ := exists_cons_of_ne_nil isKey.stands.present
    have first := isKey.stands.first
    have last := isKey.stands.last
    rw [shape] at first last ⊢
    rw [cons_append, trimWhere, dropWhile_cons_of_neg (by simpa using first),
      ← cons_append, trimEndWhere_append_singleton (by decide), trimEndWhere_eq_self last]
  have textTrimmed : trimWhere isBlank (' ' :: text.toList) = text.toList := by
    rw [trimWhere_cons (by decide), stands.trimmed]
  have cut : cutAtFirst? '=' (withoutComment (settingLine key text).toList) =
      some (key.toList ++ [' '], ' ' :: text.toList) := by
    rw [withoutComment_eq (fitsLine_settingLine isKey stands), trimWhere_settingLine isKey stands,
      settingLine_toList, cutAtFirst?_append]
    simp [isKey.unequal]
  rw [settingOf?, cut]
  simp only [Option.map_some, keyTrimmed, textTrimmed, String.ofList_toList]
  rfl

/-- A line that was written for a setting makes this setting. -/
theorem addLine_settingLine (settings : Settings) :
    addLine settings (settingLine key text) = Assoc.put key (readValue text) settings := by
  have notReference : referenceKey.toList.isPrefixOf (trim (settingLine key text)).toList =
      false := by
    obtain ⟨c, rest, shape⟩ := exists_cons_of_ne_nil isKey.stands.present
    have other : c ≠ '#' := by
      rintro rfl
      exact isKey.stands.fits.unhashed (by simp [shape])
    rw [trim, trimWhere_settingLine isKey stands, settingLine_toList, shape]
    simp [referenceKey, List.isPrefixOf, other.symm]
  rw [addLine]
  simp only [notReference, Bool.false_eq_true, if_false, settingOf?_settingLine isKey stands]

end Setting

/-! The reference line. -/

theorem read?_quotedReference {path : String} (present : path ≠ "")
    (unquoted : '"' ∉ path.toList) :
    quotedReference.read? (referenceKey.toList ++ ' ' :: '"' :: (path.toList ++ ['"'])) =
      some (path, []) := by
  have key := read?_literal referenceKey (' ' :: '"' :: (path.toList ++ ['"']))
  have blank := @Reader.read?_someBlanks [' '] ('"' :: (path.toList ++ ['"'])) (by simp)
    (all_eq_true.mp (by decide)) (show isBlank '"' = false by decide)
  have opened := read?_literal "\"" (path.toList ++ ['"'])
  have inside := @Reader.read?_someRun (· != '"') path.toList ['"']
    (by simpa using present) (fun c mem => by grind) rfl
  have closed := read?_literal "\"" []
  rw [quotedReference, read?_bind, key, Option.bind_some, read?_bind]
  rw [show ' ' :: '"' :: (path.toList ++ ['"']) = [' '] ++ '"' :: (path.toList ++ ['"']) from rfl,
    blank, Option.bind_some, read?_bind]
  rw [show '"' :: (path.toList ++ ['"']) = "\"".toList ++ (path.toList ++ ['"']) from rfl, opened,
    Option.bind_some, read?_bind, inside, Option.bind_some, read?_bind]
  rw [show ['"'] = "\"".toList ++ [] from rfl, String.ofList_toList]
  rfl

theorem addLine_reference (settings : Settings) {path : String} (present : path ≠ "")
    (unquoted : '"' ∉ path.toList) :
    addLine settings ("#reference " ++ quoted path) = Assoc.put referenceKey path settings := by
  have shape : ("#reference " ++ quoted path).toList =
      referenceKey.toList ++ ' ' :: '"' :: (path.toList ++ ['"']) := by
    rw [String.toList_append, quoted_toList]
    rfl
  have trimmed : trim ("#reference " ++ quoted path) = "#reference " ++ quoted path := by
    rw [trim, trimWhere_eq_self, String.ofList_toList]
    · rw [shape]
      show isBlank '#' = false
      decide
    · rw [shape, ← cons_append, ← cons_append, ← append_assoc, getLast?_concat]
      decide
  have found := @Reader.head?_findAll _ _ ("#reference " ++ quoted path) _ _
    (by simp)
    (by rw [shape]; exact read?_quotedReference present unquoted)
  have opens : referenceKey.toList.isPrefixOf ("#reference " ++ quoted path).toList := by
    rw [shape]
    simp
  obtain ⟨place, first, rfl⟩ := Option.map_eq_some_iff.mp found
  rw [addLine]
  simp only [trimmed, opens, if_true, first]

end WebShader.Preset
