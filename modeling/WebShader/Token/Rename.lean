import WebShader.Token.Query

/-!
Contract: replacing whole identifiers in shader source.

Owns: `rename`, which leaves comments, strings and member names alone.

Does not own: the choice of new names.
-/

namespace WebShader.Token

/-- A renaming: old names with their new ones. The first entry for a name counts. -/
abbrev Renaming := List (String × String)

/-- The texts of a token list after renaming, given the last significant token before it. -/
def renamedTexts (names : Renaming) (previous : Option Token) : List Token → List String
  | [] => []
  | token :: rest =>
    let text :=
      if token.isIdent && !selectsMember previous then
        (names.lookup token.text).getD token.text
      else token.text
    text :: renamedTexts names (significantAfter previous token) rest

def rename (names : Renaming) (source : String) : String :=
  String.join (renamedTexts names none (lex source))

end WebShader.Token
