/-!
Contract: sets of offsets kept as spans.

Owns: half-open spans, their insertion with merging, and the membership and
overlap tests that later passes use as masks.

Does not own: what the spans cover.

The spans of a set ascend and neither touch nor overlap.
-/

namespace WebShader

/-- The offsets from `start` up to, not including, `stop`. -/
structure Span where
  start : Int
  stop : Int
  deriving DecidableEq, Repr

structure SpanSet where
  spans : List Span
  deriving DecidableEq, Repr

namespace SpanSet

def empty : SpanSet :=
  ⟨[]⟩

/-- Inserts a nonempty span into ascending spans. Spans that it touches are merged with it. -/
def insertSpan (start stop : Int) : List Span → List Span
  | [] => [⟨start, stop⟩]
  | span :: rest =>
    if span.stop < start then span :: insertSpan start stop rest
    else if stop < span.start then ⟨start, stop⟩ :: span :: rest
    else insertSpan (min start span.start) (max stop span.stop) rest

/-- Adds the offsets of a span. A span that ends where it starts, or before, holds none. -/
def insert (set : SpanSet) (start stop : Int) : SpanSet :=
  if stop ≤ start then set else ⟨insertSpan start stop set.spans⟩

def ofList (spans : List (Int × Int)) : SpanSet :=
  spans.foldl (fun set span => set.insert span.1 span.2) empty

def contains (set : SpanSet) (offset : Int) : Bool :=
  set.spans.any fun span => span.start ≤ offset && offset < span.stop

/-- Whether some offset of the set lies at `start` or between it and `stop`. -/
def overlaps (set : SpanSet) (start stop : Int) : Bool :=
  set.spans.any fun span =>
    (span.start ≤ start && start < span.stop) || (start < span.start && span.start < stop)

def size (set : SpanSet) : Nat :=
  set.spans.length

def describe (set : SpanSet) : String :=
  let pairs := set.spans.map fun span => s!"({span.start}, {span.stop})"
  "RangeSet([" ++ String.intercalate ", " pairs ++ "])"

end SpanSet

end WebShader
