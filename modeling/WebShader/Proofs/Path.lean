import WebShader.Path
import WebShader.Proofs.Text.Lines

/-!
Contract: the two ways of following a path give one answer.

Owns: paths as their components, joining and normalizing on components, and
relative paths that stay below the top of a directory.

One way folds components onto a stack, the other joins texts and normalizes the
result. They agree as long as no parent is taken above the top.
-/

namespace WebShader.Path

open List Text

variable {base part wanted : String} {kept names parts : List String} {isRooted : Bool}

/-! Components on a stack. -/

def isName (part : String) : Bool :=
  part != "." && part != ".."

/-- No front part climbs higher than a depth and the names in it allow. -/
def StaysBelow (depth : Nat) (parts : List String) : Prop :=
  ∀ count ≤ parts.length,
    (parts.take count).count ".." ≤ depth + (parts.take count).countP isName

theorem StaysBelow.tail {depth next : Nat} (below : StaysBelow depth (part :: parts))
    (step : depth + [part].countP isName = next + [part].count "..") : StaysBelow next parts := by
  intro count bound
  have whole := below (count + 1) (Nat.succ_le_succ bound)
  rw [take_succ_cons, ← singleton_append, count_append, countP_append] at whole
  omega

theorem addComponent_name (solid : part ≠ "") (named : isName part) (kept : List String) :
    addComponent isRooted kept part = kept ++ [part] := by
  obtain ⟨notCurrent, notParent⟩ := Bool.and_eq_true_iff.mp named
  rw [addComponent]
  simp_all

theorem foldl_addComponent_names (names : ∀ part ∈ parts, part ≠ "" ∧ isName part)
    (kept : List String) : parts.foldl (addComponent isRooted) kept = kept ++ parts := by
  induction parts generalizing kept with
  | nil => rw [foldl_nil, append_nil]
  | cons part rest ih =>
    obtain ⟨here, later⟩ := forall_mem_cons.mp names
    rw [foldl_cons, addComponent_name here.1 here.2, ih later, append_assoc, singleton_append]

theorem addComponent_subset : addComponent isRooted kept part ⊆ part :: kept := by
  rw [addComponent]
  split
  · exact subset_cons_self part kept
  · split
    · simp
    next isParent =>
      obtain rfl : part = ".." := by simpa using isParent
      split
      · split <;> simp
      · split
        · simp
        · exact List.Subset.trans (dropLast_subset kept) (subset_cons_self _ kept)

theorem mem_foldl_addComponent (mem : part ∈ parts.foldl (addComponent isRooted) kept) :
    part ∈ kept ∨ part ∈ parts := by
  induction parts generalizing kept with
  | nil => exact .inl mem
  | cons first rest ih =>
    rcases ih mem with inKept | later
    · rcases mem_cons.mp (addComponent_subset inKept) with rfl | before
      · exact .inr mem_cons_self
      · exact .inl before
    · exact .inr (mem_cons_of_mem _ later)

/-- Both ways treat components alike where a parent finds a name to remove. -/
theorem foldl_followComponent (root : List String) (plain : ".." ∉ kept)
    (solid : ∀ part ∈ parts, part ≠ "") (below : StaysBelow kept.length parts) :
    parts.foldl followComponent (root ++ kept) =
      root ++ parts.foldl (addComponent isRooted) kept := by
  induction parts generalizing kept with
  | nil => rfl
  | cons part rest ih =>
    obtain ⟨nonempty, solidRest⟩ := forall_mem_cons.mp solid
    rw [foldl_cons, foldl_cons, followComponent]
    by_cases parent : part = ".."
    · subst parent
      have climbs := below 1 (Nat.le_add_left 1 _)
      rcases eq_nil_or_concat kept with rfl | ⟨front, last, rfl⟩
      · simp [isName] at climbs
      have other : (last == "..") = false := by
        rw [beq_eq_false_iff_ne]
        rintro rfl
        exact plain (by simp)
      simp only [addComponent, concat_eq_append, getLast?_concat, dropLast_concat, other,
        ← append_assoc]
      refine ih (fun mem => plain (by simp [mem])) solidRest (below.tail ?_)
      rw [length_concat]
      rfl
    · by_cases current : part = "."
      · subst current
        exact ih plain solidRest (below.tail rfl)
      · have named : isName part := by simp [isName, parent, current]
        rw [if_neg (by simpa using parent), if_neg (by simpa using current),
          addComponent_name nonempty named, append_assoc]
        refine ih (by simp [plain, Ne.symm parent]) solidRest (below.tail ?_)
        simp [named, parent]

/-! Texts. -/

/-- What stands in front of the components of a path: an empty one for the root. -/
def rootParts (isRooted : Bool) : List String :=
  if isRooted then [""] else []

/-- The components below the root; of a relative path, all of them. -/
def named (path : String) : List String :=
  (components path).drop (rootParts (isAbsolute path)).length

theorem components_eq (path : String) :
    components path = rootParts (isAbsolute path) ++ named path ∧ named path ≠ [] := by
  have present := splitAtEach_ne_nil '/'
  cases absolute : isAbsolute path with
  | false => simp [named, absolute, rootParts, components, present]
  | true =>
    rw [isAbsolute, beq_iff_eq, head?_eq_some_iff] at absolute
    obtain ⟨rest, shape⟩ := absolute
    simp [named, isAbsolute, rootParts, components, shape, splitAtEach, present]

theorem ofComponents_components (path : String) : ofComponents (components path) = path :=
  intercalate_splitAtEach rfl path

theorem slash_not_mem {path part : String} (mem : part ∈ components path) : '/' ∉ part.toList := by
  obtain ⟨piece, listed, rfl⟩ := mem_map.mp mem
  rw [String.toList_ofList]
  exact not_mem_of_mem_splitAtEach listed

/-- The text in front of a component: those before it, each with a slash. -/
def fronted (parts : List String) : String :=
  String.join (parts.map (· ++ "/"))

theorem ofComponents_append (front : List String) {back : List String} (present : back ≠ []) :
    ofComponents (front ++ back) = fronted front ++ ofComponents back :=
  intercalate_append front present

theorem fronted_rootParts : fronted (rootParts isRooted) =
    String.ofList (replicate isRooted.toNat '/') := by
  cases isRooted <;> rfl

theorem components_ofComponents (present : parts ≠ []) (single : ∀ part ∈ parts, '/' ∉ part.toList) :
    components (ofComponents parts) = parts := by
  rw [components, ofComponents, splitAtEach_intercalate rfl present single]
  simp [Function.comp_def]

/-- Normalizing folds the components, if a name is left. -/
theorem normalize_ofComponents {front : List String} {last : String}
    (solid : ∀ part ∈ parts, part ≠ "" ∧ '/' ∉ part.toList)
    (folds : parts.foldl (addComponent isRooted) [] = front ++ [last]) (nonempty : last ≠ "") :
    normalize (ofComponents (rootParts isRooted ++ parts)) =
      ofComponents (rootParts isRooted ++ (front ++ [last])) := by
  cases parts with
  | nil => simp at folds
  | cons first rest =>
    have split : components (ofComponents (rootParts isRooted ++ first :: rest)) =
        rootParts isRooted ++ first :: rest := by
      refine components_ofComponents (by simp) ?_
      cases isRooted <;> simp_all [rootParts]
    have slashes : leadingSlashes (ofComponents (rootParts isRooted ++ first :: rest)) =
        isRooted.toNat := by
      obtain ⟨c, more, shape⟩ := exists_cons_of_ne_nil
        (mt String.toList_eq_nil_iff.mp (solid first mem_cons_self).1)
      have other : isSlash c = false := by
        rw [isSlash, beq_eq_false_iff_ne]
        rintro rfl
        exact (solid first mem_cons_self).2 (by simp [shape])
      have leads : (ofComponents (first :: rest)).toList.takeWhile isSlash = [] := by
        rw [ofComponents]
        cases rest <;> simp [shape, other]
      rw [ofComponents_append _ (cons_ne_nil _ _), fronted_rootParts, leadingSlashes,
        String.toList_append]
      cases isRooted <;> simp [leads, isSlash]
    have kept : (rootParts isRooted ++ first :: rest).foldl (addComponent isRooted) [] =
        front ++ [last] := by
      cases isRooted <;> exact folds
    have rooted : (isRooted.toNat != 0) = isRooted := by cases isRooted <;> rfl
    have text : ofComponents (front ++ [last]) = fronted front ++ last :=
      ofComponents_append front (cons_ne_nil _ _)
    simp only [normalize, slashes, split, rooted, kept]
    rw [text, if_neg (by simp [nonempty]), ofComponents_append (rootParts isRooted) (by simp),
      fronted_rootParts, text]

theorem trimEndWhere_append_all {inClass : Char → Bool} {first second : List Char}
    (inside : ∀ c ∈ second, inClass c) (ends : first.getLast?.any inClass = false) :
    trimEndWhere inClass (first ++ second) = first := by
  rw [trimEndWhere, reverse_append, dropWhile_append_of_pos (by simpa using inside), ← trimEndWhere,
    trimEndWhere_eq_self ends]

/-- Joining to the directory of a path replaces what stands behind its last slash. -/
theorem join_directory {text last : String} (single : '/' ∉ last.toList)
    (ends : text = "" ∨ text = "/" ∨
      ∃ dir c, text = dir ++ "/" ∧ dir.toList.getLast? = some c ∧ c ≠ '/')
    (relative : isAbsolute wanted = false) :
    join (directory (text ++ last)) wanted = text ++ wanted := by
  have head : trimEndWhere (!isSlash ·) (text ++ last).toList = text.toList := by
    rw [String.toList_append]
    refine trimEndWhere_append_all (fun c mem => ?_) ?_
    · have ne : c ≠ '/' := fun same => single (same ▸ mem)
      simpa [isSlash] using ne
    · rcases ends with rfl | rfl | ⟨dir, c, rfl, -, -⟩ <;> simp [isSlash]
  simp only [directory, head]
  rcases ends with rfl | rfl | ⟨dir, c, rfl, last, other⟩
  · simp [join]
  · simp [join, relative, isSlash]
  · have notAll : (dir ++ "/").toList.all isSlash = false := by
      rw [String.toList_append]
      exact all_eq_false.mpr ⟨c, mem_append_left _ (mem_of_getLast? last),
        by simpa [isSlash] using other⟩
    rw [notAll, if_neg (by decide), String.toList_append, trimEndWhere_append_all (by simp [isSlash])
      (by simpa [last, isSlash] using other), String.ofList_toList, join, relative, if_neg (by decide),
      if_neg]
    rintro empty
    simp_all

/-- In front of a component stands nothing, the root, or a name with a slash. -/
theorem fronted_ends (solid : ∀ part ∈ names, part ≠ "" ∧ '/' ∉ part.toList) :
    fronted (rootParts isRooted ++ names) = "" ∨ fronted (rootParts isRooted ++ names) = "/" ∨
      ∃ dir c, fronted (rootParts isRooted ++ names) = dir ++ "/" ∧ dir.toList.getLast? = some c ∧
        c ≠ '/' := by
  rcases eq_nil_or_concat names with rfl | ⟨others, part, rfl⟩
  · cases isRooted
    · exact .inl rfl
    · exact .inr (.inl rfl)
  · obtain ⟨nonempty, single⟩ := solid part (by simp)
    have present := mt String.toList_eq_nil_iff.mp nonempty
    refine .inr (.inr ⟨fronted (rootParts isRooted ++ others) ++ part,
      part.toList.getLast present, ?_, ?_, ?_⟩)
    · simp [fronted, String.append_assoc]
    · rw [String.toList_append, getLast?_append, getLast?_eq_some_getLast present, Option.some_or]
    · intro slash
      exact single (slash ▸ getLast_mem present)

/-- A path from a preset and the same path from an include lead to one place: the components of the
first are names, and the second has no empty ones, ends with a name, and climbs nowhere above the
directory of the first. -/
theorem follow_eq_resolve (plain : ∀ part ∈ named base, part ≠ "" ∧ part ≠ "." ∧ part ≠ "..")
    (solid : ∀ part ∈ components wanted, part ≠ "")
    (ends : (components wanted).getLast?.any isName)
    (below : StaysBelow ((named base).length - 1) (components wanted)) :
    follow base wanted = resolve base wanted := by
  obtain ⟨baseParts, present⟩ := components_eq base
  obtain ⟨front, last, shape⟩ : ∃ front last, named base = front ++ [last] :=
    ⟨_, _, (dropLast_concat_getLast present).symm⟩
  obtain ⟨name, found, endsNamed⟩ := (Option.any_eq_true _ _).mp ends
  obtain ⟨lead, parts⟩ := getLast?_eq_some_iff.mp found
  have solidName : name ≠ "" := solid name (mem_of_getLast? found)
  rw [shape] at baseParts plain below
  rw [length_append, length_singleton, Nat.add_sub_cancel] at below
  have names : ∀ part ∈ front, part ≠ "" ∧ isName part := by
    intro part mem
    obtain ⟨nonempty, notCurrent, notParent⟩ := plain part (mem_append_left _ mem)
    exact ⟨nonempty, by simp [isName, notCurrent, notParent]⟩
  have relative : isAbsolute wanted = false := by
    rw [Bool.eq_false_iff]
    intro absolute
    refine solid "" ?_ rfl
    rw [(components_eq wanted).1, absolute]
    exact mem_append_left _ mem_cons_self
  have single : ∀ part ∈ front ++ [last], '/' ∉ part.toList := fun part mem =>
    @slash_not_mem base part (by rw [baseParts]; exact mem_append_right _ mem)
  have whole : ∀ part ∈ front ++ components wanted, part ≠ "" ∧ '/' ∉ part.toList := by
    intro part mem
    rcases mem_append.mp mem with inFront | inWanted
    · exact ⟨(names part inFront).1, single part (mem_append_left _ inFront)⟩
    · exact ⟨solid part inWanted, slash_not_mem inWanted⟩
  -- both ways fold the components of the second path onto the directory of the first
  have folds : (front ++ components wanted).foldl (addComponent (isAbsolute base)) [] =
      lead.foldl (addComponent (isAbsolute base)) front ++ [name] := by
    rw [foldl_append, foldl_addComponent_names names, nil_append, parts, foldl_append, foldl_cons,
      foldl_nil, addComponent_name solidName endsNamed]
  have joined : join (directory base) wanted =
      ofComponents (rootParts (isAbsolute base) ++ (front ++ components wanted)) := by
    have text : base = fronted (rootParts (isAbsolute base) ++ front) ++ last := by
      calc base = ofComponents (components base) := (ofComponents_components base).symm
        _ = ofComponents ((rootParts (isAbsolute base) ++ front) ++ [last]) := by
          rw [baseParts, append_assoc]
        _ = _ := ofComponents_append _ (cons_ne_nil _ _)
    have more : components wanted ≠ [] := by rw [parts]; simp
    rw [← append_assoc, ofComponents_append _ more, ofComponents_components]
    generalize isAbsolute base = isRooted at text ⊢
    rw [text]
    exact join_directory (single last (by simp))
      (fronted_ends fun part mem => whole part (mem_append_left _ mem)) relative
  have opens : ¬ base.isEmpty := by
    intro empty
    rw [String.isEmpty_iff.mp empty] at shape
    exact (plain "" (by rw [← shape]; decide)).1 rfl
  rw [follow, if_neg opens, resolve, relative, if_neg (by decide), joined,
    normalize_ofComponents whole folds solidName, ← folds, baseParts, ← append_assoc,
    dropLast_concat, @foldl_followComponent _ _ (isAbsolute base) _ _ solid below, foldl_append,
    foldl_addComponent_names names, nil_append]
  intro mem
  exact (plain ".." (mem_append_left _ mem)).2.2 rfl

/-- A path through the current directory and up, from a path below the root. -/
theorem follow_eq_resolve_parent :
    follow "/presets/crt/my.slangp" "./x/../../common/stock.slang" = "/presets/common/stock.slang" ∧
      resolve "/presets/crt/my.slangp" "./x/../../common/stock.slang" =
        "/presets/common/stock.slang" := by
  have same := @follow_eq_resolve "/presets/crt/my.slangp" "./x/../../common/stock.slang"
    (by decide +kernel) (by decide +kernel) (by decide +kernel) (by unfold StaysBelow; decide +kernel)
  have found : follow "/presets/crt/my.slangp" "./x/../../common/stock.slang" =
    "/presets/common/stock.slang" := by decide +kernel
  exact ⟨found, same.symm.trans found⟩

end WebShader.Path
