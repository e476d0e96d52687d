import WebShader.Text.Reader

/-!
Contract: what readers read from the front of a text.

Owns: one law per way of building a reader, on texts that start with what it
wants, and where it stops; and the walk that `replaceAll` makes.

`replaceAll` lists the matches with their offsets first and cuts the text at
them afterwards. `rewriteFrom` does both at once and has no offsets, so
properties of a pattern are proved by induction on the text.
-/

namespace WebShader.Text.Reader

open List

variable {inClass : Char → Bool} {found rest text : List Char} {value : Unit}
  {α β : Type} {wanted : String}

theorem read?_bind (first : Reader α) (next : α → Reader β) (text : List Char) :
    (first >>= next).read? text =
      (first.read? text).bind fun found => (next found.1).read? found.2 := rfl

theorem read?_map (change : α → β) (reader : Reader α) (text : List Char) :
    (change <$> reader).read? text =
      (reader.read? text).map fun found => (change found.1, found.2) := by
  rw [map_eq_pure_bind, read?_bind]
  cases reader.read? text <;> rfl

theorem read?_orElse (first second : Reader α) (text : List Char) :
    (first <|> second).read? text = (first.read? text <|> second.read? text) := rfl

theorem read?_blanks (text : List Char) : blanks.read? text = some ((), text.dropWhile isBlank) :=
  rfl

theorem read?_literal (wanted : String) (rest : List Char) :
    (literal wanted).read? (wanted.toList ++ rest) = some ((), rest) := by
  show (afterPrefix? wanted.toList (wanted.toList ++ rest)).map (fun rest => ((), rest)) = _
  rw [afterPrefix?, if_pos (by simp), List.drop_left]
  rfl

theorem takeWhile_run (inside : ∀ c ∈ found, inClass c) (ends : rest.head?.any inClass = false) :
    (found ++ rest).takeWhile inClass = found ∧ (found ++ rest).dropWhile inClass = rest := by
  have stops : rest.takeWhile inClass = [] ∧ rest.dropWhile inClass = rest := by
    cases rest with
    | nil => exact ⟨rfl, rfl⟩
    | cons c others => simp_all
  simp_all

theorem read?_someRun (present : found ≠ []) (inside : ∀ c ∈ found, inClass c)
    (ends : rest.head?.any inClass = false) :
    (someRun inClass).read? (found ++ rest) = some (String.ofList found, rest) := by
  obtain ⟨taken, left⟩ := takeWhile_run inside ends
  show (if ((found ++ rest).takeWhile inClass).isEmpty then none
    else some (String.ofList ((found ++ rest).takeWhile inClass),
      (found ++ rest).dropWhile inClass)) = _
  rw [taken, left, if_neg (by simpa using present)]

theorem read?_someBlanks (present : found ≠ []) (inside : ∀ c ∈ found, isBlank c)
    (ends : rest.head?.any isBlank = false) :
    someBlanks.read? (found ++ rest) = some ((), rest) := by
  show ((someRun isBlank).read? (found ++ rest)).bind (fun read => some ((), read.2)) = _
  rw [read?_someRun present inside ends]
  rfl

theorem literal_eq_some (reads : (literal wanted).read? text = some (value, rest)) :
    text = wanted.toList ++ rest := by
  have taken : (afterPrefix? wanted.toList text).map (fun rest => ((), rest)) =
      some (value, rest) := reads
  obtain ⟨left, after, same⟩ := Option.map_eq_some_iff.mp taken
  obtain rfl : left = rest := congrArg Prod.snd same
  rw [afterPrefix?] at after
  split at after
  next opens =>
    obtain rfl := Option.some.inj after
    obtain ⟨further, rfl⟩ := List.isPrefixOf_iff_prefix.mp opens
    rw [List.drop_left]
  · cases after

theorem suffix_of_literal
    (reads : (literal wanted).read? text = some (value, rest)) : rest <:+ text :=
  ⟨wanted.toList, (literal_eq_some reads).symm⟩

theorem someRun_eq_some {value : String} (reads : (someRun inClass).read? text = some (value, rest)) :
    value.toList = text.takeWhile inClass ∧ rest = text.dropWhile inClass ∧
      text.takeWhile inClass ≠ [] := by
  have taken : (if (text.takeWhile inClass).isEmpty then none
    else some (String.ofList (text.takeWhile inClass), text.dropWhile inClass)) =
      some (value, rest) := reads
  split at taken
  · cases taken
  next present =>
    obtain ⟨rfl, rfl⟩ := Prod.mk.inj (Option.some.inj taken)
    simp_all

theorem someBlanks_eq_some (reads : someBlanks.read? text = some (value, rest)) :
    rest <:+ text ∧ text.head?.any isBlank := by
  have taken : ((someRun isBlank).read? text).bind (fun read => some ((), read.2)) =
      some (value, rest) := reads
  obtain ⟨⟨run, left⟩, first, same⟩ := Option.bind_eq_some_iff.mp taken
  obtain rfl : left = rest := congrArg Prod.snd (Option.some.inj same)
  obtain ⟨-, rfl, present⟩ := someRun_eq_some first
  refine ⟨dropWhile_suffix _, ?_⟩
  cases text with
  | nil => exact absurd rfl present
  | cons c others => grind [takeWhile_cons_of_neg]

/-- A reader that succeeds on a whole text is found at its start. -/
theorem head?_findAll {reader : Reader α} {text : String} {value : α} {after : List Char}
    (present : text ≠ "") (reads : reader.read? text.toList = some (value, after)) :
    (findAll anywhere reader text).head?.map Found.value = some value := by
  obtain ⟨c, rest, shape⟩ := exists_cons_of_ne_nil (by simpa using present : text.toList ≠ [])
  rw [shape] at reads
  rw [findAll, shape, findAllFrom]
  simp only [reads]
  rfl

/-! What is left when a reader is done. -/

/-- A reader takes characters from the front, and these at last. -/
def Takes (last : List Char) (reader : Reader α) : Prop :=
  ∀ ⦃text value rest⦄, reader.read? text = some (value, rest) → last ++ rest <:+ text

theorem Takes.bind {first : Reader α} {next : α → Reader β} (front : first.Takes [])
    (back : ∀ value, (next value).Takes last) : (first >>= next).Takes last := by
  intro text value rest reads
  obtain ⟨found, read, further⟩ := Option.bind_eq_some_iff.mp reads
  exact (back _ further).trans (front read)

theorem Takes.optional {reader : Reader α} (takes : reader.Takes []) :
    (Reader.optional reader).Takes [] := by
  intro text value rest reads
  simp only [Reader.read?, StateT.run, Reader.optional] at reads
  split at reads
  next found => exact Prod.mk.inj (Option.some.inj reads) |>.2 ▸ takes found
  grind

theorem takes_literal (wanted : String) : (literal wanted).Takes wanted.toList :=
  fun _ _ _ reads => ⟨[], (literal_eq_some reads).symm⟩

theorem takes_run (inClass : Char → Bool) : (run inClass).Takes [] := by
  intro text value rest reads
  obtain rfl : text.dropWhile inClass = rest := congrArg Prod.snd (Option.some.inj reads)
  exact dropWhile_suffix _

theorem takes_someRun (inClass : Char → Bool) : (someRun inClass).Takes [] := by
  intro text value rest reads
  rw [(someRun_eq_some reads).2.1]
  exact dropWhile_suffix _

theorem takes_through (closer : Char) : (through closer).Takes [] := by
  intro text value rest reads
  obtain ⟨parts, cut, same⟩ := Option.map_eq_some_iff.mp reads
  obtain rfl : parts.2 = rest := congrArg Prod.snd same
  clear reads same
  induction text generalizing parts with
  | nil => cases cut
  | cons c others ih =>
    rw [cutAtFirst?] at cut
    split at cut
    · cases cut
      exact suffix_cons _ _
    · obtain ⟨shorter, found, rfl⟩ := Option.map_eq_some_iff.mp cut
      exact (ih _ found).trans (suffix_cons _ _)

theorem Takes.andPure {reader : Reader α} (takes : reader.Takes last) (result : α → β) :
    (reader >>= fun value => pure (result value)).Takes last := by
  intro text value rest reads
  obtain ⟨found, read, further⟩ := Option.bind_eq_some_iff.mp reads
  obtain rfl : found.2 = rest := congrArg Prod.snd (Option.some.inj further)
  exact takes read

theorem Takes.drop {reader : Reader α} (takes : reader.Takes last) : reader.Takes [] :=
  fun _ _ _ reads => (suffix_append _ _).trans (takes reads)

theorem takes_literalIn (words : List String) : (literalIn words).Takes [] := by
  induction words with
  | nil => rintro text value rest ⟨⟩
  | cons word others ih =>
    intro text value rest reads
    rw [literalIn, read?_orElse, Option.orElse_eq_orElse, Option.orElse_eq_or] at reads
    rcases Option.or_eq_some_iff.mp reads with first | ⟨-, later⟩
    · exact (takes_literal word).drop.andPure _ first
    · exact ih later

theorem takes_bracketed : bracketed.Takes [] :=
  (takes_literal _).drop.bind fun _ => (takes_through _).andPure _

theorem takes_blanks : blanks.Takes [] :=
  (takes_run _).andPure _

theorem takes_someBlanks : someBlanks.Takes [] :=
  (takes_someRun _).andPure _

end WebShader.Text.Reader

namespace WebShader.Text

open List

variable {α : Type}

/-- Rewrites a text from left to right; `skip` characters belong to the last match. -/
def rewriteFrom (opening : Opening) (reader : Reader α) (replacement : α → String)
    (previous : Option Char) (skip : Nat) : List Char → List Char
  | [] => []
  | c :: rest =>
    match skip with
    | remaining + 1 => rewriteFrom opening reader replacement (some c) remaining rest
    | 0 =>
      match if opening previous then reader.read? (c :: rest) else none with
      | some (value, after) =>
        (replacement value).toList ++
          rewriteFrom opening reader replacement (some c) (rest.length - after.length) rest
      | none => c :: rewriteFrom opening reader replacement (some c) 0 rest

/-- What is found in a text from an offset on: it is read at its start and stops where the reader
does. -/
def IsMatch (reader : Reader α) (offset : Nat) (text : List Char) (found : Found α) : Prop :=
  ∃ front c rest after, text = front ++ c :: rest ∧ found.start = offset + front.length ∧
    reader.read? (c :: rest) = some (found.value, after) ∧
    found.stop = found.start + 1 + (rest.length - after.length)

theorem mem_findAllFrom {opening : Opening} {reader : Reader α} {text : List Char} :
    ∀ {prev : Option Char} {offset skip : Nat} {found : Found α},
      found ∈ findAllFrom opening reader prev offset skip text →
        IsMatch reader offset text found := by
  induction text with
  | nil => exact fun mem => absurd mem not_mem_nil
  | cons c rest ih =>
    intro prev offset skip found mem
    have later {next : Nat}
        (further : found ∈ findAllFrom opening reader (some c) (offset + 1) next rest) :
        IsMatch reader offset (c :: rest) found := by
      obtain ⟨front, d, others, after, rfl, start, read⟩ := ih further
      exact ⟨c :: front, d, others, after, rfl, by rw [length_cons]; omega, read⟩
    cases skip with
    | succ n => exact later mem
    | zero =>
      rw [findAllFrom] at mem
      split at mem
      next read =>
        rcases mem_cons.mp mem with rfl | further
        · exact ⟨[], c, rest, _, rfl, rfl, (Option.ite_none_right_eq_some.mp read).2, rfl⟩
        · exact later further
      · exact later mem

/-- A match starts behind the offset of the text and stops behind its start. -/
theorem findAllFrom_bounds {opening : Opening} {reader : Reader α} {text : List Char}
    {prev : Option Char} {offset skip : Nat} {found : Found α}
    (mem : found ∈ findAllFrom opening reader prev offset skip text) :
    offset ≤ found.start ∧ found.start ≤ found.stop := by
  obtain ⟨_, _, _, _, -, start, -, stop⟩ := mem_findAllFrom mem
  omega

/-- `kept` has been read since the last match ended at `base`. -/
theorem replaceFound_findAllFrom (opening : Opening) (reader : Reader α)
    (replacement : α → String) (text : List Char) :
    ∀ (prev : Option Char) (offset skip base : Nat) (kept : List Char),
      base + kept.length = offset + skip → (kept = [] ∨ skip = 0) →
      replaceFound replacement base (kept ++ text.drop skip)
          (findAllFrom opening reader prev offset skip text) =
        kept ++ rewriteFrom opening reader replacement prev skip text := by
  induction text with
  | nil =>
    simp [findAllFrom, replaceFound, rewriteFrom]
  | cons c rest ih =>
    intro prev offset skip base kept placed apart
    cases skip with
    | succ n =>
      have empty : kept = [] := apart.resolve_right (Nat.succ_ne_zero n)
      have later := ih (some c) (offset + 1) n base kept (by omega) (.inl empty)
      simpa only [findAllFrom, rewriteFrom, drop_succ_cons] using later
    | zero =>
      have start : offset - base = kept.length := by omega
      cases found : (if opening prev then reader.read? (c :: rest) else none) with
      | none =>
        have later := ih (some c) (offset + 1) 0 base (kept ++ [c])
          (by simp only [length_append, length_singleton]; omega) (.inr rfl)
        simpa [findAllFrom, rewriteFrom, found] using later
      | some result =>
        obtain ⟨value, after⟩ := result
        have stop : offset + 1 + (rest.length - after.length) - base =
            kept.length + (1 + (rest.length - after.length)) := by omega
        have later := ih (some c) (offset + 1) (rest.length - after.length)
          (offset + 1 + (rest.length - after.length)) [] (by simp) (.inl rfl)
        simp only [nil_append] at later
        simp only [findAllFrom, rewriteFrom, found, drop_zero, replaceFound, start, stop,
          take_left, drop_append, Nat.add_comm 1, drop_succ_cons,
          Nat.add_sub_cancel_left, append_assoc]
        rw [drop_eq_nil_of_le (Nat.le_add_right _ _), nil_append, later]

theorem toList_replaceAll (opening : Opening) (reader : Reader α) (replacement : α → String)
    (text : String) :
    (replaceAll opening reader replacement text).toList =
      rewriteFrom opening reader replacement none 0 text.toList := by
  have walk := replaceFound_findAllFrom opening reader replacement text.toList none 0 0 0 []
  simpa [replaceAll, findAll] using walk

end WebShader.Text
