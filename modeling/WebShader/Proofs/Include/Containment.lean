import WebShader.Proofs.Include.Trace
import WebShader.Proofs.Path

/-!
Contract: which of the files that an expansion asks for lie below a root.

Owns: normal paths as their components, places below a root, and the places of
the paths that includes name.

A path that an include names is normal, so that its parents stand in front of its
names. It leads out of a root only by them: an absolute path is one below the
root, and empty components name nothing.
-/

namespace WebShader.Path

open List Text

variable {base part root target : String} {kept parts : List String} {isRooted : Bool}

/-- The components of a path once it is normalized. -/
def normalParts (path : String) : List String :=
  (components path).foldl (addComponent (leadingSlashes path != 0)) []

/-- The place of a path below a root: its components are joined to the root one by one. -/
def location (root path : String) : String :=
  (components path).foldl join root

/-- A path that, once normalized, is a root or lies below it. -/
structure Within (root path : String) : Prop where
  slashes : leadingSlashes path = leadingSlashes root
  below : ∃ names, normalParts path = normalParts root ++ names ∧ ".." ∉ names

/-! Normal components. -/

def isSolid (part : String) : Bool :=
  part != "" && part != "."

def Normal (parts : List String) : Prop :=
  ∃ count names, parts = replicate count ".." ++ names ∧ ∀ name ∈ names, name ≠ "" ∧ isName name

theorem addComponent_blank (blank : isSolid part = false) : addComponent isRooted kept part = kept := by
  have skipped : part.isEmpty || part == "." := by
    rcases Bool.and_eq_false_iff.mp blank with none | current
    · simp_all
    · simp_all
  rw [addComponent, if_pos skipped]

theorem foldl_addComponent_solid (kept parts : List String) :
    parts.foldl (addComponent isRooted) kept =
      (parts.filter isSolid).foldl (addComponent isRooted) kept := by
  induction parts generalizing kept with
  | nil => rfl
  | cons part rest ih =>
    rw [foldl_cons, filter_cons, ih]
    cases solid : isSolid part with
    | true => rfl
    | false => rw [addComponent_blank solid]; rfl

theorem addComponent_normal (normal : Normal kept) : Normal (addComponent isRooted kept part) := by
  obtain ⟨count, names, rfl, named⟩ := normal
  cases solid : isSolid part with
  | false =>
    rw [addComponent_blank solid]
    exact ⟨count, names, rfl, named⟩
  | true =>
    obtain ⟨nonempty, notCurrent⟩ : part ≠ "" ∧ part ≠ "." := by simpa [isSolid] using solid
    by_cases parent : part = ".."
    · subst parent
      rcases eq_nil_or_concat names with rfl | ⟨front, last, rfl⟩
      · -- only parents are there, and another one joins them unless the path is rooted
        rw [addComponent]
        cases count with
        | zero =>
          cases isRooted with
          | false => exact ⟨1, [], rfl, forall_mem_nil _⟩
          | true => exact ⟨0, [], rfl, forall_mem_nil _⟩
        | succ more =>
          refine ⟨more + 2, [], ?_, forall_mem_nil _⟩
          simp [replicate_succ']
      · have other : (last == "..") = false := by simp_all [isName]
        refine ⟨count, front, ?_, fun name mem => named name (by simp [mem])⟩
        simp [addComponent, other]
    · refine ⟨count, names ++ [part], ?_, ?_⟩
      · rw [addComponent_name nonempty (by simp [isName, parent, notCurrent]), append_assoc]
      · simp only [forall_mem_append, forall_mem_singleton]
        exact ⟨named, nonempty, by simp [isName, parent, notCurrent]⟩

theorem normalParts_normal (path : String) : Normal (normalParts path) := by
  have walk (parts kept : List String) (normal : Normal kept) (isRooted : Bool) :
      Normal (parts.foldl (addComponent isRooted) kept) := by
    induction parts generalizing kept with
    | nil => exact normal
    | cons part rest ih => exact ih _ (addComponent_normal normal)
  exact walk _ [] ⟨0, [], rfl, forall_mem_nil _⟩ _

theorem mem_normalParts {path : String} (mem : part ∈ normalParts path) : '/' ∉ part.toList := by
  rcases mem_foldl_addComponent mem with none | listed
  · cases none
  · exact slash_not_mem listed

theorem leadingSlashes_le (path : String) : leadingSlashes path ≤ 2 := by
  unfold leadingSlashes
  split <;> omega

/-- The components of a normalized path, apart from those that name nothing. -/
theorem components_normalize (path : String) :
    (components (normalize path)).filter isSolid = normalParts path := by
  have solid : (normalParts path).filter isSolid = normalParts path := by
    obtain ⟨count, names, shape, named⟩ := normalParts_normal path
    rw [shape, filter_append, filter_replicate_of_pos (by decide), filter_eq_self.mpr]
    intro name mem
    simp_all [isName, isSolid]
  have unfolds : normalize path =
      let text := String.ofList (replicate (leadingSlashes path) '/') ++ ofComponents (normalParts path)
      if text.isEmpty then "." else text := rfl
  have fronts : ∀ count ≤ 2, String.ofList (replicate count '/') = fronted (replicate count "") := by
    decide
  rw [unfolds]
  by_cases present : normalParts path = []
  · have blank : ∀ count ≤ 2,
        (components (if (String.ofList (replicate count '/') ++ ofComponents []).isEmpty then "."
          else String.ofList (replicate count '/') ++ ofComponents [])).filter isSolid = [] := by
      decide
    rw [present, blank _ (leadingSlashes_le path)]
  · have parts : (components (ofComponents
        (replicate (leadingSlashes path) "" ++ normalParts path))).filter isSolid =
          normalParts path := by
      rw [components_ofComponents (by simp [present]), filter_append,
        filter_replicate_of_neg (by decide), nil_append, solid]
      rw [forall_mem_append]
      exact ⟨fun part mem => by simp [eq_of_mem_replicate mem], fun part mem => mem_normalParts mem⟩
    rw [fronts _ (leadingSlashes_le path), ← ofComponents_append _ present, if_neg, parts]
    intro empty
    rw [String.isEmpty_iff.mp empty] at parts
    exact present parts.symm

/-! Joining one component. -/

theorem components_single (single : '/' ∉ part.toList) : components part = [part] := by
  have whole := components_ofComponents (cons_ne_nil part []) (by simpa using single)
  rwa [ofComponents] at whole

theorem components_slash (text : String) (single : '/' ∉ part.toList) :
    components (text ++ "/" ++ part) = components text ++ [part] := by
  have walk (rest : List Char) : splitAtEach '/' (rest ++ '/' :: part.toList) =
      splitAtEach '/' rest ++ splitAtEach '/' part.toList := by
    induction rest with
    | nil => rfl
    | cons c rest ih =>
      obtain ⟨piece, others, shape⟩ := exists_cons_of_ne_nil (splitAtEach_ne_nil '/' rest)
      rw [cons_append, splitAtEach, ih, splitAtEach, shape]
      split <;> rfl
  have parts := components_single single
  rw [components] at parts
  rw [components, String.toList_append, String.toList_append, append_assoc]
  show map _ (splitAtEach '/' (text.toList ++ '/' :: part.toList)) = _
  rw [walk, map_append, parts]
  rfl

/-- A component is put right behind a path that is empty or ends with a slash. -/
theorem join_cases (base : String) (single : '/' ∉ part.toList) :
    base = "" ∧ join base part = part ∨
      (∃ front, base = front ++ "/" ∧ join base part = base ++ part) ∨
      base.toList.all isSlash = false ∧ join base part = base ++ "/" ++ part := by
  have relative : isAbsolute part = false := by
    rw [isAbsolute, beq_eq_false_iff_ne]
    exact fun first => single (mem_of_head? first)
  rw [join, relative, if_neg (by decide)]
  rcases eq_nil_or_concat base.toList with empty | ⟨front, last, shape⟩
  · obtain rfl := String.toList_eq_nil_iff.mp empty
    exact .inl ⟨rfl, String.empty_append⟩
  · have present : base.isEmpty = false := by
      rw [Bool.eq_false_iff]
      intro empty
      simp [String.isEmpty_iff.mp empty] at shape
    rw [present, shape, concat_eq_append, getLast?_concat]
    by_cases slash : last = '/'
    · subst slash
      refine .inr (.inl ⟨String.ofList front, ?_, if_pos rfl⟩)
      rw [← String.toList_inj, shape, String.toList_append, String.toList_ofList, concat_eq_append]
      rfl
    · simp [slash, isSlash]

/-- A component behind a path leaves the slashes at its front. -/
theorem leadingSlashes_join (base : String) (single : '/' ∉ part.toList) :
    leadingSlashes (join base part) = leadingSlashes base := by
  have none : part.toList.takeWhile isSlash = [] := by
    cases shape : part.toList with
    | nil => rfl
    | cons c rest =>
      refine takeWhile_cons_of_neg fun slash => single ?_
      rw [shape, beq_iff_eq.mp slash]
      exact mem_cons_self
  have same : (join base part).toList.takeWhile isSlash = base.toList.takeWhile isSlash := by
    rcases join_cases base single with ⟨rfl, shape⟩ | ⟨front, -, shape⟩ | ⟨other, shape⟩
    · rw [shape, none]
      rfl
    · rw [shape, String.toList_append, takeWhile_append, none, append_nil]
      split
      next all => rw [(List.takeWhile_prefix _).eq_of_length all]
      · rfl
    · rw [shape, String.toList_append, String.toList_append, append_assoc, takeWhile_append, if_neg]
      intro all
      rw [← (List.takeWhile_prefix _).eq_of_length all, all_takeWhile] at other
      cases other
  rw [leadingSlashes, same, leadingSlashes]

theorem normalParts_join (base : String) (single : '/' ∉ part.toList) :
    normalParts (join base part) =
      addComponent (leadingSlashes base != 0) (normalParts base) part := by
  rw [normalParts, leadingSlashes_join base single, normalParts]
  generalize (leadingSlashes base != 0) = isRooted
  have blank (kept : List String) : addComponent isRooted kept "" = kept := addComponent_blank rfl
  rcases join_cases base single with ⟨rfl, shape⟩ | ⟨front, rfl, shape⟩ | ⟨-, shape⟩
  · rw [shape, components_single single, show components "" = [""] from rfl, foldl_cons, foldl_nil,
      foldl_cons, foldl_nil, blank]
  · have trailing := @components_slash "" front not_mem_nil
    rw [String.append_empty] at trailing
    rw [shape, trailing, components_slash front single, foldl_append, foldl_append, foldl_cons,
      foldl_nil, foldl_cons, foldl_nil, blank]
  · rw [shape, components_slash base single, foldl_append, foldl_cons, foldl_nil]

/-- The place of a path below a root has the root's components with those of the path behind. -/
theorem normalParts_location (root path : String) :
    leadingSlashes (location root path) = leadingSlashes root ∧
      normalParts (location root path) =
        (components path).foldl (addComponent (leadingSlashes root != 0)) (normalParts root) := by
  have walk (parts : List String) (single : ∀ part ∈ parts, '/' ∉ part.toList) (base : String) :
      leadingSlashes (parts.foldl join base) = leadingSlashes base ∧
        normalParts (parts.foldl join base) =
          parts.foldl (addComponent (leadingSlashes base != 0)) (normalParts base) := by
    induction parts generalizing base with
    | nil => exact ⟨rfl, rfl⟩
    | cons part rest ih =>
      obtain ⟨here, later⟩ := forall_mem_cons.mp single
      have next := ih later (join base part)
      rwa [leadingSlashes_join base here, normalParts_join base here] at next
  exact walk _ (fun _ => slash_not_mem) root

/-! Normal paths below a root. -/

theorem normalParts_location_normalize (root path : String) :
    normalParts (location root (normalize path)) =
      (normalParts path).foldl (addComponent (leadingSlashes root != 0)) (normalParts root) := by
  rw [(normalParts_location root _).2, foldl_addComponent_solid, components_normalize]

theorem mem_components_normalize {path : String} :
    ".." ∈ components (normalize path) ↔ ".." ∈ normalParts path := by
  rw [← components_normalize, mem_filter]
  exact (and_iff_left (by decide)).symm

theorem foldl_parents (count : Nat) :
    (replicate count "..").foldl (addComponent (0 != 0)) [] = replicate count ".." := by
  induction count with
  | zero => rfl
  | succ count ih =>
    rw [replicate_succ', foldl_append, ih, foldl_cons]
    cases count with
    | zero => rfl
    | succ more => simp [addComponent, getLast?_replicate]

/-- A normal path stays below every root exactly if it has no parents. -/
theorem within_location_normalize (path : String) :
    (∀ root, Within root (location root (normalize path))) ↔ ".." ∉ components (normalize path) := by
  obtain ⟨count, names, shape, named⟩ := normalParts_normal path
  have plain : ".." ∉ names := fun mem => absurd (named ".." mem).2 (by decide)
  rw [mem_components_normalize, shape]
  constructor
  · intro stays climbs
    -- below the current directory a normal path is its own place
    obtain ⟨-, below, place, free⟩ := stays "."
    have current : normalParts "." = [] ∧ leadingSlashes "." = 0 := by decide
    rw [normalParts_location_normalize, current.1, current.2, shape, nil_append, foldl_append,
      foldl_parents, foldl_addComponent_names named] at place
    exact free (place ▸ climbs)
  · intro absent root
    obtain rfl : count = 0 := by
      cases count with
      | zero => rfl
      | succ more => exact absurd (by simp [replicate_succ]) absent
    refine ⟨(normalParts_location root _).1, names, ?_, plain⟩
    rw [normalParts_location_normalize, shape]
    exact foldl_addComponent_names named _

end WebShader.Path

namespace WebShader.Include

open List Text

/-- Files are asked for by normal paths. -/
theorem Expands.fetches_normal {settings : Settings} {stack macros sourceLines : List String}
    {path : String} {branches : List Branch} {events : List Event}
    {ending : Except Fault (List String)}
    (expands : Expands settings stack path branches macros sourceLines events ending) :
    ∀ meeting ∈ fetches events, ∃ place, meeting.target = Path.normalize place := by
  have named {path line target : String} {branches : List Branch}
      (meets : Meets path branches line target) : ∃ place, target = Path.normalize place := by
    obtain ⟨wanted, -, rfl⟩ := meets.reads
    rw [Path.resolve]
    split
    · exact ⟨_, rfl⟩
    · exact ⟨_, rfl⟩
  induction expands with
  | done | refused => exact forall_mem_nil _
  | kept _ _ laterIh | skipped _ _ _ laterIh | circular _ _ _ laterIh => exact laterIh
  | failed asks _ _ _ laterIh => exact forall_mem_cons.mpr ⟨named asks.toMeets, laterIh⟩
  | broken asks => exact forall_mem_singleton.mpr (named asks.toMeets)
  | opened asks _ _ _ insideIh laterIh =>
    refine forall_mem_cons.mpr ⟨named asks.toMeets, ?_⟩
    rw [filterMap_append, forall_mem_append]
    exact ⟨insideIh, laterIh⟩
  | stopped asks _ _ insideIh => exact forall_mem_cons.mpr ⟨named asks.toMeets, insideIh⟩

/-- A path that an expansion asks for stays below every root that files are read from exactly if
it has no parents. -/
theorem expand_fetches_below (settings : Settings) (source path : String)
    (predefined : List String) :
    ∀ target ∈ (runExpansion predefined (expand settings source path)).value.2.fetched,
      (∀ root, Path.Within root (Path.location root target)) ↔ ".." ∉ Path.components target := by
  obtain ⟨events, ending, expands, fetched, -⟩ := expand_expands settings source path predefined
  rw [fetched, forall_mem_map]
  intro meeting mem
  obtain ⟨place, normal⟩ := expands.fetches_normal meeting mem
  rw [normal]
  exact Path.within_location_normalize place

/-- A parent of the top leads out of the root, and a parent of an absolute path does not. -/
theorem expand_fetches_below_parent :
    (runExpansion [] (expand ⟨fun _ => .error .missingFile, 20⟩
        "#include \"../x.inc\"\n#include \"/../y.inc\"" "a.slang")).value.2.fetched =
        ["../x.inc", "/y.inc"] ∧
      (¬∀ root, Path.Within root (Path.location root "../x.inc")) ∧
      ∀ root, Path.Within root (Path.location root "/y.inc") := by
  have fetched : (runExpansion [] (expand ⟨fun _ => .error .missingFile, 20⟩
      "#include \"../x.inc\"\n#include \"/../y.inc\"" "a.slang")).value.2.fetched =
        ["../x.inc", "/y.inc"] := by
    have parts : lines "#include \"../x.inc\"\n#include \"/../y.inc\"" =
        ["#include \"../x.inc\"", "#include \"/../y.inc\""] := by decide
    have first : Line.ofText "#include \"../x.inc\"" = .include "../x.inc" := by decide +kernel
    have second : Line.ofText "#include \"/../y.inc\"" = .include "/../y.inc" := by decide +kernel
    have places : Path.resolve "a.slang" "../x.inc" = "../x.inc" ∧
        Path.resolve "a.slang" "/../y.inc" = "/y.inc" := by decide +kernel
    simp only [expand, parts, expandLines, first, second, places]
    rfl
  have below := expand_fetches_below ⟨fun _ => .error .missingFile, 20⟩
    "#include \"../x.inc\"\n#include \"/../y.inc\"" "a.slang" []
  rw [fetched] at below
  exact ⟨fetched, mt (below "../x.inc" (by simp)).mp (by decide), (below "/y.inc" (by simp)).mpr (by decide)⟩

end WebShader.Include
