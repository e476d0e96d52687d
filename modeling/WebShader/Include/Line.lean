import WebShader.Text.Reader

/-!
Contract: the lines that matter when includes are expanded.

Owns: the reading of one line.

Does not own: the meaning of conditions; here a condition other than a test of
one name always may hold.
-/

namespace WebShader.Include

open Text Reader

/-- A directive that opens, divides or closes a group of lines. -/
inductive GroupLine where
  | testDefined (name : String) (wanted : Bool)
  | test
  | otherTest
  | otherwise
  | endGroup
  deriving DecidableEq, Repr

inductive Line where
  | group (directive : GroupLine)
  | define (name : String)
  | undefine (name : String)
  | include (path : String)
  | plain
  deriving DecidableEq, Repr

namespace Line

open Reader

def hash : Reader Unit := do
  blanks
  literal "#"
  blanks

def namedDirective (directive : String) : Reader String := do
  hash
  literal directive
  someBlanks
  word

def quotedPath : Reader String := do
  hash
  literal "include"
  someBlanks
  literal "\""
  let path ← someRun (· != '"')
  literal "\""
  return path

def groupWord : Reader Line := do
  hash
  match ← word with
  | "if" => return .group .test
  | "elif" => return .group .otherTest
  | "else" => return .group .otherwise
  | "endif" => return .group .endGroup
  | _ => fail

def directive : Reader Line :=
  ((fun name => .group (.testDefined name true)) <$> namedDirective "ifdef") <|>
  ((fun name => .group (.testDefined name false)) <$> namedDirective "ifndef") <|>
  groupWord <|>
  (Line.define <$> namedDirective "define") <|>
  (Line.undefine <$> namedDirective "undef") <|>
  (Line.include <$> quotedPath)

def ofText (line : String) : Line :=
  match directive.read? line.toList with
  | some (found, _) => found
  | none => .plain

end Line

/-- An open group: whether the current branch is live, and whether the tested branch was. -/
structure Branch where
  isLive : Bool
  wasChosen : Bool
  deriving DecidableEq, Repr

/-- The open groups after a directive, the innermost first. A directive outside
all groups changes nothing. -/
def GroupLine.apply (macros : List String) (branches : List Branch) : GroupLine → List Branch
  | .testDefined name wanted =>
    let isLive := macros.contains name == wanted
    ⟨isLive, isLive⟩ :: branches
  | .test => ⟨true, false⟩ :: branches
  | .otherTest =>
    match branches with
    | branch :: others => { branch with isLive := true } :: others
    | [] => []
  | .otherwise =>
    match branches with
    | branch :: others => { branch with isLive := !branch.wasChosen } :: others
    | [] => []
  | .endGroup => branches.tail

end WebShader.Include
