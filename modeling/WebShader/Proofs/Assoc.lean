import WebShader.Assoc

/-!
Contract: what a table of keys holds after values are put in.

Owns: the keys and the values of a table, and tables that are equal because
these are.
-/

namespace WebShader.Assoc

open List

variable {α : Type}

def keys (entries : List (String × α)) : List String :=
  entries.map Prod.fst

theorem lookup_put (key other : String) (value : α) (entries : List (String × α)) :
    (put key value entries).lookup other =
      if other == key then some value else entries.lookup other := by
  induction entries with
  | nil =>
    rw [put]
    split <;> simp_all
  | cons entry rest ih =>
    rw [put]
    grind

theorem keys_put_of_mem {key : String} (value : α) {entries : List (String × α)}
    (present : key ∈ keys entries) : keys (put key value entries) = keys entries := by
  induction entries with
  | nil => cases present
  | cons entry rest ih =>
    rw [put]
    split
    next same => simp [keys, beq_iff_eq.mp same]
    next ne =>
      rcases mem_cons.mp present with rfl | later
      · exact absurd (beq_self_eq_true _) ne
      · exact congrArg (entry.1 :: ·) (ih later)

theorem mem_keys_put (key : String) (value : α) (entries : List (String × α)) (other : String) :
    other ∈ keys (put key value entries) ↔ other = key ∨ other ∈ keys entries := by
  induction entries with
  | nil => simp [put, keys]
  | cons entry rest ih =>
    rw [put]
    split
    next same =>
      simp only [keys, map_cons, mem_cons, beq_iff_eq.mp same]
      exact (or_self_left ..).symm
    · simp only [keys, map_cons, mem_cons] at ih ⊢
      rw [ih]
      exact or_left_comm

theorem nodup_keys_put (key : String) (value : α) {entries : List (String × α)}
    (distinct : (keys entries).Nodup) : (keys (put key value entries)).Nodup := by
  induction entries with
  | nil => simp [put, keys]
  | cons entry rest ih =>
    by_cases present : key ∈ keys (entry :: rest)
    · rwa [keys_put_of_mem value present]
    · have ne : ¬ (entry.1 == key) := by
        intro same
        exact present (by rw [← beq_iff_eq.mp same]; exact mem_cons_self)
      have parts := nodup_cons.mp distinct
      rw [put, if_neg ne]
      refine nodup_cons.mpr ⟨fun mem => ?_, ih parts.2⟩
      rcases (mem_keys_put key value rest entry.1).mp mem with same | inRest
      · exact ne (beq_iff_eq.mpr same)
      · exact parts.1 inRest

/-- Tables with the same keys in the same order and the same values are equal. -/
theorem ext_lookup {entries others : List (String × α)} (distinct : (keys entries).Nodup)
    (same : keys entries = keys others)
    (values : ∀ key, entries.lookup key = others.lookup key) : entries = others := by
  induction entries generalizing others with
  | nil =>
    cases others with
    | nil => rfl
    | cons other more => cases same
  | cons entry rest ih =>
    cases others with
    | nil => cases same
    | cons other more =>
      obtain ⟨firstKey, laterKeys⟩ := List.cons.inj same
      obtain ⟨absent, distinctRest⟩ := nodup_cons.mp distinct
      have firstValue := values entry.1
      rw [List.lookup_cons, List.lookup_cons, firstKey, beq_self_eq_true] at firstValue
      have first : entry = other := Prod.ext firstKey (Option.some.inj firstValue)
      rw [first, ih distinctRest laterKeys]
      intro key
      by_cases here : key = entry.1
      · grind [List.lookup_eq_none_iff]
      · have later := values key
        grind

/-! Tables of many values. -/

section Table

variable (nameOf : α → String)

def putAll (values : List α) (entries : List (String × α)) : List (String × α) :=
  values.foldl (fun entries value => put (nameOf value) value entries) entries

theorem lookup_putAll (values : List α) (entries : List (String × α)) (key : String) :
    (putAll nameOf values entries).lookup key =
      (values.reverse.find? fun value => key == nameOf value).or (entries.lookup key) := by
  induction values generalizing entries with
  | nil => rfl
  | cons value rest ih =>
    rw [putAll, foldl_cons, ← putAll, ih, lookup_put, reverse_cons, find?_append]
    grind

theorem nodup_keys_putAll (values : List α) {entries : List (String × α)}
    (distinct : (keys entries).Nodup) : (keys (putAll nameOf values entries)).Nodup := by
  induction values generalizing entries with
  | nil => exact distinct
  | cons value rest ih => exact ih (nodup_keys_put _ value distinct)

theorem mem_keys_putAll (values : List α) (entries : List (String × α)) {key : String}
    (known : key ∈ keys entries ∨ ∃ value ∈ values, key = nameOf value) :
    key ∈ keys (putAll nameOf values entries) := by
  induction values generalizing entries with
  | nil =>
    rcases known with there | ⟨value, none, -⟩
    · exact there
    · cases none
  | cons value rest ih =>
    refine ih (put (nameOf value) value entries) ?_
    rw [mem_keys_put]
    grind

theorem keys_putAll_of_mem {values : List α} {entries : List (String × α)}
    (known : ∀ value ∈ values, nameOf value ∈ keys entries) :
    keys (putAll nameOf values entries) = keys entries := by
  induction values generalizing entries with
  | nil => rfl
  | cons value rest ih => grind [keys_put_of_mem, putAll]

/-- Values put in a second time change nothing. -/
theorem putAll_twice (values : List α) :
    putAll nameOf (values ++ values) [] = putAll nameOf values [] := by
  have again : putAll nameOf (values ++ values) [] =
      putAll nameOf values (putAll nameOf values []) := foldl_append
  rw [again]
  refine ext_lookup (nodup_keys_putAll nameOf values (nodup_keys_putAll nameOf values nodup_nil))
    (keys_putAll_of_mem nameOf fun value mem =>
      mem_keys_putAll nameOf values [] (.inr ⟨value, mem, rfl⟩)) fun key => ?_
  rw [lookup_putAll, lookup_putAll, ← Option.or_assoc, Option.or_self]

end Table

end WebShader.Assoc
