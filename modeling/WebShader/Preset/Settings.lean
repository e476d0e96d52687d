import WebShader.Assoc
import WebShader.Text.Reader

/-!
Contract: the settings in the text of a preset.

Owns: keys with their values, comments, quotes and the reference line.

Does not own: which keys mean something.

Two slashes or a hash start a comment. A key set twice keeps its last value in
its first place.
-/

namespace WebShader.Preset

open Text

abbrev Settings := List (String × String)

/-- The key of the preset that a preset refers to; no line can set it. -/
def referenceKey : String :=
  "#reference"

def quotedReference : Reader String := do
  Reader.literal referenceKey
  Reader.someBlanks
  Reader.literal "\""
  let path ← Reader.someRun (· != '"')
  Reader.literal "\""
  return path

/-- The part of a line before two slashes. -/
def beforeSlashes : List Char → List Char
  | [] => []
  | '/' :: '/' :: _ => []
  | c :: rest => c :: beforeSlashes rest

def withoutComment (line : List Char) : List Char :=
  trimWhere isBlank ((beforeSlashes line).takeWhile (· != '#'))

def unquote (value : List Char) : List Char :=
  match value with
  | '"' :: rest => if rest.getLast? == some '"' then rest.dropLast else value
  | _ => value

def settingOf? (line : List Char) : Option (String × String) :=
  (cutAtFirst? '=' (withoutComment line)).map fun parts =>
    (String.ofList (trimWhere isBlank parts.1),
      String.ofList (unquote (trimWhere isBlank parts.2)))

/-- The settings after a line. A reference line without a quoted path is skipped. -/
def addLine (settings : Settings) (line : String) : Settings :=
  let trimmed := trim line
  if referenceKey.toList.isPrefixOf trimmed.toList then
    match (findAll anywhere quotedReference trimmed).head? with
    | some found => Assoc.put referenceKey found.value settings
    | none => settings
  else
    match settingOf? line.toList with
    | some (key, value) => Assoc.put key value settings
    | none => settings

def Settings.ofText (content : String) : Settings :=
  (lines content).foldl addLine []

end WebShader.Preset
