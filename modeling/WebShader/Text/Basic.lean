import WebShader.Text.Class

/-!
Contract: cutting a text into runs, lines, words and slices.

Owns: the operations every reader of shader text shares. Offsets count
characters.

Does not own: the classes the cuts go by, and the lexical structure of shader
code, which is `Token`.
-/

namespace WebShader.Text

/-- How many characters at the front belong to a class. -/
def runLength (inClass : Char → Bool) (text : List Char) : Nat :=
  (text.takeWhile inClass).length

/-- The text after a literal opening, if it opens that way. -/
def afterPrefix? (opening : List Char) (text : List Char) : Option (List Char) :=
  if opening.isPrefixOf text then some (text.drop opening.length) else none

def dropBlanks (text : List Char) : List Char :=
  text.dropWhile isBlank

def trimEndWhere (inClass : Char → Bool) (text : List Char) : List Char :=
  (text.reverse.dropWhile inClass).reverse

def trimWhere (inClass : Char → Bool) (text : List Char) : List Char :=
  trimEndWhere inClass (text.dropWhile inClass)

/-- Splits at every occurrence of one character; the pieces never hold it. -/
def splitAtEach (separator : Char) : List Char → List (List Char)
  | [] => [[]]
  | c :: rest =>
    let pieces := splitAtEach separator rest
    if c == separator then [] :: pieces
    else
      match pieces with
      | [] => [[c]]
      | piece :: others => (c :: piece) :: others

/-- Cuts at the first occurrence of one character, if there is one. -/
def cutAtFirst? (separator : Char) : List Char → Option (List Char × List Char)
  | [] => none
  | c :: rest =>
    if c == separator then some ([], rest)
    else (cutAtFirst? separator rest).map fun parts => (c :: parts.1, parts.2)

def occursIn (wanted : List Char) : List Char → Bool
  | [] => wanted.isEmpty
  | c :: rest => wanted.isPrefixOf (c :: rest) || occursIn wanted rest

def blankSeparated (text : List Char) : List (List Char) :=
  match _shape : text.dropWhile isBlank with
  | [] => []
  | c :: rest =>
    (c :: rest.takeWhile (!isBlank ·)) :: blankSeparated (rest.dropWhile (!isBlank ·))
termination_by text.length
decreasing_by
  have kept : (rest.dropWhile fun x => !isBlank x).length ≤ rest.length :=
    (List.dropWhile_suffix _).length_le
  have dropped : (text.dropWhile isBlank).length ≤ text.length :=
    (List.dropWhile_suffix _).length_le
  rw [_shape] at dropped
  simp only [List.length_cons] at dropped
  omega

/-- The characters from `start` up to, not including, `stop`. -/
def slice (text : String) (start stop : Nat) : String :=
  String.ofList ((text.toList.drop start).take (stop - start))

def lines (text : String) : List String :=
  (splitAtEach '\n' text.toList).map String.ofList

def unlines (pieces : List String) : String :=
  String.intercalate "\n" pieces

def trim (text : String) : String :=
  String.ofList (trimWhere isBlank text.toList)

def trimStart (text : String) : String :=
  String.ofList (text.toList.dropWhile isBlank)

def trimEnd (text : String) : String :=
  String.ofList (trimEndWhere isBlank text.toList)

def words (text : String) : List String :=
  (blankSeparated text.toList).map String.ofList

def isAllBlank (text : String) : Bool :=
  text.toList.all isBlank

def holds (text wanted : String) : Bool :=
  occursIn wanted.toList text.toList

/-- The place that an offset names; a negative offset counts from the end. -/
def placeOf (length : Nat) (offset : Int) : Nat :=
  if offset < 0 then (offset + length).toNat else offset.toNat

/-- The line of an offset, the first line being one. -/
def lineNumberAt (text : String) (offset : Int) : Nat :=
  let characters := text.toList
  (characters.take (placeOf characters.length offset)).count '\n' + 1

end WebShader.Text
