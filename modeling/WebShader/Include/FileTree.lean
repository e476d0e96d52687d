import WebShader.Include.Expansion
import WebShader.Text.Decoding

/-!
Contract: files below a directory.

Owns: the tree of files, walking a path in it, and reading the file there.

Does not own: the storage of a tree.

A path is followed component by component, so a component before `..` must be a
directory. Nothing is known outside the tree.
-/

namespace WebShader.Include

open Text

structure StoredFile where
  path : List String
  bytes : List UInt8
  deriving DecidableEq, Repr

abbrev FileTree := List StoredFile

namespace FileTree

/-- A file at a path; empty components and single points name nothing. -/
def storedAt (path : String) (bytes : List UInt8) : StoredFile :=
  ⟨(Path.components path).filter fun component => !component.isEmpty && component != ".", bytes⟩

/-- The file at a place; the last stored one counts. -/
def file? (tree : FileTree) (place : List String) : Option StoredFile :=
  (tree.filter (·.path == place)).getLast?

/-- The top is a directory, and so is everything that a file lies below. -/
def hasDirectory (tree : FileTree) (place : List String) : Bool :=
  place.isEmpty || tree.any fun file =>
    place.isPrefixOf file.path && place.length < file.path.length

/-- Walks from a directory, or from nowhere once the path has left the tree. -/
def walk (tree : FileTree) (place? : Option (List String)) :
    List String → Except Fault StoredFile
  | [] => .error .isDirectory
  | component :: rest =>
    if component.isEmpty || component == "." then walk tree place? rest
    else
      match place? with
      | none =>
        if component == ".." then walk tree none rest else .error .missingFile
      | some place =>
        if component == ".." then
          walk tree (if place.isEmpty then none else some place.dropLast) rest
        else
          let next := place ++ [component]
          if hasDirectory tree next then walk tree (some next) rest
          else
            match file? tree next with
            | none => .error .missingFile
            | some file => if rest.isEmpty then .ok file else .error .notDirectory

def read (tree : FileTree) (encoding : Encoding) : Files := fun path => do
  if path.toList.contains (Char.ofNat 0) then throw .invalidPath
  let file ← walk tree (some []) (Path.components path)
  match decode encoding file.bytes with
  | .ok characters => return String.ofList (unifyLineEnds characters)
  | .error fault => throw (.notFetched path fault.message)

end FileTree

end WebShader.Include
