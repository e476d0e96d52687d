import WebShader.Text.Basic

/-!
Contract: slash-separated paths as texts.

Owns: the directory of a path, joining and normalizing, and the path that an
include names.

Does not own: whether anything exists at a path.

Normalizing is lexical: `..` removes the component before it. A path may start
with one slash or exactly two; more count as one.
-/

namespace WebShader.Path

open Text

def isSlash (c : Char) : Bool :=
  c == '/'

def components (path : String) : List String :=
  (splitAtEach '/' path.toList).map String.ofList

def ofComponents (parts : List String) : String :=
  String.intercalate "/" parts

def isAbsolute (path : String) : Bool :=
  path.toList.head? == some '/'

/-- Everything before the last component, without slashes at its end unless it
has nothing else. -/
def directory (path : String) : String :=
  let head := trimEndWhere (!isSlash ·) path.toList
  String.ofList (if head.all isSlash then head else trimEndWhere isSlash head)

/-- One path below another; an absolute one stands alone. -/
def join (base path : String) : String :=
  if isAbsolute path then path
  else if base.isEmpty || base.toList.getLast? == some '/' then base ++ path
  else base ++ "/" ++ path

/-- The slashes that a normalized path keeps at its start. -/
def leadingSlashes (path : String) : Nat :=
  match (path.toList.takeWhile isSlash).length with
  | 0 => 0
  | 2 => 2
  | _ => 1

/-- Adds a component at the end, or removes one. Above the root there is nothing;
above a relative path there are parents. -/
def addComponent (isRooted : Bool) (kept : List String) (component : String) : List String :=
  if component.isEmpty || component == "." then kept
  else if component != ".." then kept ++ [component]
  else
    match kept.getLast? with
    | none => if isRooted then [] else [".."]
    | some last => if last == ".." then kept ++ [".."] else kept.dropLast

/-- The shortest path that means the same; the empty path is the current directory. -/
def normalize (path : String) : String :=
  let slashes := leadingSlashes path
  let kept := (components path).foldl (addComponent (slashes != 0)) []
  let text := String.ofList (List.replicate slashes '/') ++ ofComponents kept
  if text.isEmpty then "." else text

/-- The path that an include names: absolute, or below the directory of the including file. -/
def resolve (includingPath wanted : String) : String :=
  if isAbsolute wanted then normalize wanted
  else normalize (join (directory includingPath) wanted)

/-- Follows one component of a path from the directory of a preset. -/
def followComponent (kept : List String) (component : String) : List String :=
  if component == ".." then kept.dropLast
  else if component == "." then kept
  else kept ++ [component]

/-- The path that a preset names, from the preset's own path. Parents of the top
are the top, and nothing else is normalized. -/
def follow (presetPath wanted : String) : String :=
  if presetPath.isEmpty then wanted
  else ofComponents ((components wanted).foldl followComponent (components presetPath).dropLast)

end WebShader.Path
