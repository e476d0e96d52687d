import WebShader.SpanSet

/-!
Contract: a set of spans is stored in one way.

Owns: membership after spans are put in, the order that the spans of a set keep,
the queries that this order lets one answer from two neighbouring spans, and
that sets with the same offsets have the same spans.

Every span ends before the next one starts. Between two spans there is thus an
offset that the set lacks, and the ends of the spans can be read off the offsets.
-/

namespace WebShader.SpanSet

open List

variable {offset : Int} {set : SpanSet} {start stop : Int} {spans : List (Int × Int)}

def Within (start stop offset : Int) : Prop :=
  start ≤ offset ∧ offset < stop

theorem contains_iff :
    set.contains offset ↔ ∃ span ∈ set.spans, Within span.start span.stop offset := by
  simp [contains, Within]

/-- Two spans that touch cover what the span around both covers. -/
theorem within_hull {other stopOther : Int} (reaches : start ≤ stopOther) (touches : other ≤ stop) :
    Within (min start other) (max stop stopOther) offset ↔
      Within start stop offset ∨ Within other stopOther offset := by
  unfold Within
  omega

theorem mem_insertSpan (start stop : Int) (spans : List Span) (offset : Int) :
    (∃ span ∈ insertSpan start stop spans, Within span.start span.stop offset) ↔
      Within start stop offset ∨ ∃ span ∈ spans, Within span.start span.stop offset := by
  induction spans generalizing start stop with
  | nil => simp [insertSpan]
  | cons span rest ih =>
    rw [insertSpan]
    split
    · grind
    · split
      · simp only [mem_cons, exists_eq_or_imp]
      · rw [ih, within_hull (by omega) (by omega)]
        simp only [mem_cons, exists_eq_or_imp, or_assoc]

theorem contains_insert :
    (set.insert start stop).contains offset ↔ Within start stop offset ∨ set.contains offset := by
  rw [insert]
  split
  next empty =>
    refine ⟨Or.inr, ?_⟩
    rintro (⟨lower, upper⟩ | held)
    · omega
    · exact held
  next nonempty =>
    rw [contains_iff, contains_iff, mem_insertSpan]

theorem contains_foldl_insert :
    (spans.foldl (fun set span => set.insert span.1 span.2) set).contains offset ↔
      set.contains offset ∨ ∃ span ∈ spans, Within span.1 span.2 offset := by
  induction spans generalizing set with
  | nil => simp
  | cons span rest ih =>
    rw [foldl_cons, ih, contains_insert, or_assoc, or_left_comm]
    simp only [mem_cons, exists_eq_or_imp]

/-- The set of some spans holds the offsets of these spans. -/
theorem contains_ofList :
    (ofList spans).contains offset ↔ ∃ span ∈ spans, Within span.1 span.2 offset := by
  rw [ofList, contains_foldl_insert]
  simp [contains, empty]

end WebShader.SpanSet

namespace WebShader.SpanSet

open List

variable {offset start stop : Int} {rest spans : List Span} {span : Span} {set : SpanSet}

/-- Spans that hold an offset each, and neither touch nor overlap, in ascending order. -/
structure Canonical (spans : List Span) : Prop where
  nonempty : ∀ span ∈ spans, span.start < span.stop
  apart : spans.Pairwise fun first second => first.stop < second.start

/-- Whether one of the spans holds an offset. -/
def Covers (spans : List Span) (offset : Int) : Prop :=
  ∃ span ∈ spans, Within span.start span.stop offset

theorem covers_cons :
    Covers (span :: rest) offset ↔ Within span.start span.stop offset ∨ Covers rest offset := by
  simp only [Covers, mem_cons, exists_eq_or_imp]

theorem Canonical.nil : Canonical [] :=
  ⟨by simp, .nil⟩

theorem canonical_cons :
    Canonical (span :: rest) ↔
      span.start < span.stop ∧ (∀ later ∈ rest, span.stop < later.start) ∧ Canonical rest := by
  constructor
  · intro canonical
    obtain ⟨behind, apart⟩ := pairwise_cons.mp canonical.apart
    obtain ⟨here, others⟩ := forall_mem_cons.mp canonical.nonempty
    exact ⟨here, behind, others, apart⟩
  · rintro ⟨here, behind, canonical⟩
    exact ⟨forall_mem_cons.mpr ⟨here, canonical.nonempty⟩,
      pairwise_cons.mpr ⟨behind, canonical.apart⟩⟩

/-! Insertion keeps the order. -/

/-- What lies before the new span and the old ones lies before all spans after an insertion. -/
theorem lt_start_insertSpan {bound : Int} (before : bound < start)
    (beforeAll : ∀ span ∈ spans, bound < span.start) :
    ∀ span ∈ insertSpan start stop spans, bound < span.start := by
  induction spans generalizing start stop with
  | nil => simpa [insertSpan] using before
  | cons span rest ih =>
    obtain ⟨here, others⟩ := forall_mem_cons.mp beforeAll
    rw [insertSpan]
    split
    · exact forall_mem_cons.mpr ⟨here, ih before others⟩
    · split
      · exact forall_mem_cons.mpr ⟨before, beforeAll⟩
      · exact ih (by omega) others

theorem Canonical.insertSpan (nonempty : start < stop) (canonical : Canonical spans) :
    Canonical (insertSpan start stop spans) := by
  induction spans generalizing start stop with
  | nil => exact canonical_cons.mpr ⟨nonempty, by simp, .nil⟩
  | cons span rest ih =>
    obtain ⟨here, behind, others⟩ := canonical_cons.mp canonical
    rw [SpanSet.insertSpan]
    split
    next passed =>
      exact canonical_cons.mpr ⟨here, lt_start_insertSpan passed behind, ih nonempty others⟩
    · split
      next ahead =>
        refine canonical_cons.mpr ⟨nonempty, forall_mem_cons.mpr ⟨ahead, ?_⟩, canonical⟩
        grind
      · exact ih (by omega) others

theorem canonical_insert (start stop : Int) (canonical : Canonical set.spans) :
    Canonical (set.insert start stop).spans := by
  rw [insert]
  split
  · exact canonical
  · exact canonical.insertSpan (by omega)

theorem canonical_ofList (spans : List (Int × Int)) : Canonical (ofList spans).spans := by
  have keeps : ∀ set : SpanSet, Canonical set.spans →
      Canonical (spans.foldl (fun set span => set.insert span.1 span.2) set).spans := by
    induction spans with
    | nil => exact fun _ canonical => canonical
    | cons span rest ih =>
      exact fun set canonical => ih _ (canonical_insert span.1 span.2 canonical)
  exact keeps empty .nil

/-! Queries. -/

/-- The last span that starts at an offset or before it. -/
def nearest? (set : SpanSet) (offset : Int) : Option Span :=
  (set.spans.takeWhile fun span => span.start ≤ offset).getLast?

def next? (set : SpanSet) (offset : Int) : Option Span :=
  (set.spans.dropWhile fun span => span.start ≤ offset).head?

/-- Spans that start behind an offset do not hold it. -/
theorem not_covers_of_lt (behind : ∀ span ∈ spans, offset < span.start) : ¬Covers spans offset := by
  rintro ⟨span, listed, lower, -⟩
  have := behind span listed
  omega

theorem mem_of_nearest? (found : nearest? ⟨spans⟩ offset = some span) :
    span ∈ spans ∧ span.start ≤ offset := by
  have mem := mem_of_getLast? found
  grind [all_takeWhile, List.takeWhile_prefix]

section Cons

variable {span : Span} {rest : List Span} {offset : Int}

theorem nearest?_cons_of_le (starts : span.start ≤ offset) :
    nearest? ⟨span :: rest⟩ offset = some ((nearest? ⟨rest⟩ offset).getD span) := by
  rw [nearest?, nearest?, takeWhile_cons_of_pos (by simpa using starts), getLast?_cons]

theorem nearest?_cons_of_lt (behind : offset < span.start) :
    nearest? ⟨span :: rest⟩ offset = none := by
  rw [nearest?, takeWhile_cons_of_neg (by simpa using behind)]
  rfl

theorem next?_cons_of_le (starts : span.start ≤ offset) :
    next? ⟨span :: rest⟩ offset = next? ⟨rest⟩ offset := by
  rw [next?, next?, dropWhile_cons_of_pos (by simpa using starts)]

theorem next?_cons_of_lt (behind : offset < span.start) :
    next? ⟨span :: rest⟩ offset = some span := by
  rw [next?, dropWhile_cons_of_neg (by simpa using behind)]
  rfl

end Cons

/-- Of all spans the nearest one alone can hold an offset: those before it end before it starts. -/
theorem Canonical.covers_iff_nearest (canonical : Canonical spans) (offset : Int) :
    Covers spans offset ↔ (nearest? ⟨spans⟩ offset).any (fun span => offset < span.stop) := by
  induction spans with
  | nil => simp [Covers, nearest?]
  | cons span rest ih =>
    obtain ⟨here, behind, others⟩ := canonical_cons.mp canonical
    by_cases starts : span.start ≤ offset
    · rw [covers_cons, ih others, nearest?_cons_of_le starts]
      cases near : nearest? ⟨rest⟩ offset with
      | none => simp [Within, starts]
      | some later =>
        obtain ⟨listed, startsLater⟩ := mem_of_nearest? near
        have := behind later listed
        refine or_iff_right ?_
        rintro ⟨-, holds⟩
        omega
    · have ahead : offset < span.start := by omega
      rw [nearest?_cons_of_lt ahead]
      refine iff_of_false (not_covers_of_lt (forall_mem_cons.mpr ⟨ahead, ?_⟩)) (by simp)
      grind

theorem Canonical.contains_eq_nearest (canonical : Canonical set.spans) (offset : Int) :
    set.contains offset = (set.nearest? offset).any (fun span => offset < span.stop) := by
  rw [Bool.eq_iff_iff, contains_iff]
  exact canonical.covers_iff_nearest offset

/-- The first span behind an offset starts before all others. -/
theorem Canonical.starts_between_iff_next (canonical : Canonical spans) (start stop : Int) :
    (∃ span ∈ spans, start < span.start ∧ span.start < stop) ↔
      (next? ⟨spans⟩ start).any (fun span => span.start < stop) := by
  induction spans with
  | nil => simp [next?]
  | cons span rest ih =>
    obtain ⟨here, behind, others⟩ := canonical_cons.mp canonical
    by_cases starts : span.start ≤ start
    · rw [next?_cons_of_le starts]
      grind
    · rw [next?_cons_of_lt (by omega)]
      grind

theorem overlaps_iff :
    set.overlaps start stop ↔ set.contains start ∨
      ∃ span ∈ set.spans, start < span.start ∧ span.start < stop := by
  simp only [overlaps, contains, any_eq_true]
  grind

/-- An overlap is decided by the spans on both sides of its start. -/
theorem Canonical.overlaps_eq_neighbours (canonical : Canonical set.spans) (start stop : Int) :
    set.overlaps start stop = ((set.nearest? start).any (fun span => start < span.stop) ||
        (set.next? start).any fun span => span.start < stop) := by
  rw [Bool.eq_iff_iff, overlaps_iff, canonical.contains_eq_nearest, Bool.or_eq_true]
  exact or_congr_right (canonical.starts_between_iff_next start stop)

theorem Canonical.overlaps_iff_exists (canonical : Canonical set.spans) (nonempty : start < stop) :
    set.overlaps start stop ↔ ∃ offset, Within start stop offset ∧ set.contains offset := by
  rw [overlaps_iff]
  constructor
  · rintro (held | ⟨span, listed, behind, before⟩)
    · exact ⟨start, ⟨Int.le_refl _, nonempty⟩, held⟩
    · refine ⟨span.start, ⟨by omega, before⟩, contains_iff.mpr ⟨span, listed, Int.le_refl _, ?_⟩⟩
      exact canonical.nonempty span listed
  · rintro ⟨offset, ⟨lower, upper⟩, held⟩
    obtain ⟨span, listed, starts, stops⟩ := contains_iff.mp held
    by_cases around : span.start ≤ start
    · exact .inl (contains_iff.mpr ⟨span, listed, around, by omega⟩)
    · exact .inr ⟨span, listed, by omega, by omega⟩

/-! The offsets of a set tell its spans. -/

/-- The first offset of a set is where its first span starts. -/
theorem Canonical.start_le (canonical : Canonical (span :: rest))
    (covered : Covers (span :: rest) offset) : span.start ≤ offset := by
  obtain ⟨here, behind, -⟩ := canonical_cons.mp canonical
  rcases covers_cons.mp covered with ⟨lower, -⟩ | ⟨later, listed, lower, -⟩
  · exact lower
  · have := behind later listed
    omega

/-- The end of the first span is no offset of the set. -/
theorem Canonical.not_covers_stop (canonical : Canonical (span :: rest)) :
    ¬Covers (span :: rest) span.stop := by
  obtain ⟨-, behind, -⟩ := canonical_cons.mp canonical
  rw [covers_cons]
  rintro (⟨-, upper⟩ | later)
  · omega
  · exact not_covers_of_lt behind later

/-- Behind the first span the offsets are those of the others. -/
theorem Canonical.covers_rest (canonical : Canonical (span :: rest)) :
    Covers rest offset ↔ Covers (span :: rest) offset ∧ span.stop < offset := by
  obtain ⟨-, behind, -⟩ := canonical_cons.mp canonical
  rw [covers_cons]
  constructor
  · rintro ⟨later, listed, lower, upper⟩
    have := behind later listed
    exact ⟨.inr ⟨later, listed, lower, upper⟩, by omega⟩
  · rintro ⟨⟨-, upper⟩ | covered, past⟩
    · omega
    · exact covered

theorem Canonical.covers_start (canonical : Canonical (span :: rest)) :
    Covers (span :: rest) span.start :=
  ⟨span, mem_cons_self, Int.le_refl _, canonical.nonempty span mem_cons_self⟩

/-- The first spans of two sets with the same offsets stop at the same place: the set of the
longer one would hold an offset that the other lacks. -/
theorem Canonical.stop_le {first second : Span} {others : List Span}
    (canonical : Canonical (first :: rest)) (starts : second.start = first.start)
    (same : ∀ offset, Covers (first :: rest) offset ↔ Covers (second :: others) offset) :
    second.stop ≤ first.stop := by
  apply Int.not_lt.mp
  intro longer
  have held : Covers (second :: others) first.stop := by
    have := canonical.nonempty first mem_cons_self
    exact ⟨second, mem_cons_self, by omega, longer⟩
  exact canonical.not_covers_stop ((same _).mpr held)

theorem Canonical.eq_of_covers {others : List Span} (canonical : Canonical spans)
    (canonicalOther : Canonical others)
    (same : ∀ offset, Covers spans offset ↔ Covers others offset) : spans = others := by
  induction spans generalizing others with
  | nil =>
    cases others with
    | nil => rfl
    | cons second further =>
      obtain ⟨span, listed, -⟩ := (same _).mpr canonicalOther.covers_start
      cases listed
  | cons first rest ih =>
    cases others with
    | nil =>
      obtain ⟨span, listed, -⟩ := (same _).mp canonical.covers_start
      cases listed
    | cons second further =>
      have starts : second.start = first.start := Int.le_antisymm
        (canonicalOther.start_le ((same _).mp canonical.covers_start))
        (canonical.start_le ((same _).mpr canonicalOther.covers_start))
      have stops : second.stop = first.stop := Int.le_antisymm (canonical.stop_le starts same)
        (canonicalOther.stop_le starts.symm fun offset => (same offset).symm)
      have firsts : second = first := by
        cases first
        cases starts
        cases stops
        rfl
      subst firsts
      have rests : rest = further := by
        refine ih (canonical_cons.mp canonical).2.2
          (canonical_cons.mp canonicalOther).2.2 fun offset => ?_
        rw [canonical.covers_rest, canonicalOther.covers_rest, same]
      rw [rests]

theorem ofList_eq_of_covers {pairs others : List (Int × Int)}
    (same : ∀ offset, (∃ pair ∈ pairs, Within pair.1 pair.2 offset) ↔
      ∃ pair ∈ others, Within pair.1 pair.2 offset) : ofList pairs = ofList others := by
  have spans : (ofList pairs).spans = (ofList others).spans := by
    refine (canonical_ofList pairs).eq_of_covers (canonical_ofList others) fun offset => ?_
    show (∃ span ∈ _, _) ↔ ∃ span ∈ _, _
    rw [← contains_iff, ← contains_iff, contains_ofList, contains_ofList, same]
  calc ofList pairs = ⟨(ofList pairs).spans⟩ := rfl
    _ = ofList others := by rw [spans]

/-- However spans are put together, the set keeps them in one canonical form. It holds the
offsets of the given spans and no others, overlaps what shares an offset with it, answers both
queries from the neighbours of one offset, and depends on the offsets alone: not on the order
of the spans, and not on how they cut the offsets up. -/
theorem ofList_stores_canonically (pairs : List (Int × Int)) :
    Canonical (ofList pairs).spans ∧
    (∀ offset, (ofList pairs).contains offset = true ↔
      ∃ pair ∈ pairs, pair.1 ≤ offset ∧ offset < pair.2) ∧
    (∀ start stop, start < stop → ((ofList pairs).overlaps start stop = true ↔
      ∃ offset, (start ≤ offset ∧ offset < stop) ∧ (ofList pairs).contains offset = true)) ∧
    (∀ others : List (Int × Int),
      (∀ offset, (∃ pair ∈ pairs, pair.1 ≤ offset ∧ offset < pair.2) ↔
        ∃ pair ∈ others, pair.1 ≤ offset ∧ offset < pair.2) →
      ofList others = ofList pairs) ∧
    (∀ others : List (Int × Int), others.Perm pairs → ofList others = ofList pairs) ∧
    (∀ offset, (ofList pairs).contains offset =
      ((ofList pairs).nearest? offset).any fun span => offset < span.stop) ∧
    ∀ start stop, (ofList pairs).overlaps start stop =
      (((ofList pairs).nearest? start).any (fun span => start < span.stop) ||
        ((ofList pairs).next? start).any fun span => span.start < stop) := by
  have canonical := canonical_ofList pairs
  refine ⟨canonical, fun offset => contains_ofList, fun start stop => canonical.overlaps_iff_exists,
    fun others same => (ofList_eq_of_covers same).symm, fun others permuted => ?_,
    canonical.contains_eq_nearest, canonical.overlaps_eq_neighbours⟩
  refine ofList_eq_of_covers fun offset => ?_
  simp only [permuted.mem_iff]

/-- Spans in any order, two of them touching, one inside another, one empty and one turned
around. -/
theorem ofList_stores_canonically_mixed :
    (ofList [(8, 12), (3, 4), (9, 10), (1, 3), (6, 6), (20, 15)]).spans = [⟨1, 4⟩, ⟨8, 12⟩] ∧
      (ofList [(8, 12), (3, 4), (9, 10), (1, 3), (6, 6), (20, 15)]).overlaps 5 9 = true ∧
      ofList [(8, 12), (1, 4)] =
        ofList [(8, 12), (3, 4), (9, 10), (1, 3), (6, 6), (20, 15)] := by
  obtain ⟨-, -, overlapping, unique, -⟩ :=
    ofList_stores_canonically [(8, 12), (3, 4), (9, 10), (1, 3), (6, 6), (20, 15)]
  refine ⟨by decide, ?_, unique _ fun offset => ?_⟩
  · exact (overlapping 5 9 (by decide)).mpr ⟨8, by decide, by decide⟩
  · simp only [List.mem_cons, List.not_mem_nil, or_false, exists_eq_or_imp, exists_eq_left]
    omega

end WebShader.SpanSet
