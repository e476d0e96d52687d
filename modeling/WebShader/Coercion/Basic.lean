import WebShader.Coercion.Cast
import WebShader.Noted

/-!
Contract: making the use of integers and floats explicit.

Owns: one round over a source, and the rounds until the source is stable.

Does not own: the decisions in a round.

A cast may expose a literal that stood next to an integer, so a round can make
another one useful. Four rounds are run at most.
-/

namespace WebShader.Coercion

/-- The texts of tokens, with new texts for those at ascending positions. -/
def withTexts (position : Nat) : List (Nat × String) → List Token → List String
  | _, [] => []
  | [], token :: rest => token.text :: withTexts (position + 1) [] rest
  | (edited, text) :: others, token :: rest =>
    if edited == position then text :: withTexts (position + 1) others rest
    else token.text :: withTexts (position + 1) ((edited, text) :: others) rest

/-- The types of a source in a context, which may be empty. -/
def typingIn (context : String) (code : List Token) : Typing :=
  let own := Typing.ofCode code
  if context.isEmpty then own else own.merge (.ofSource context)

def round (context source : String) : String :=
  let tokens := Token.lex source
  let placed := Token.code tokens
  let code := placed.map Token.Placed.token
  let texts := coercedTexts (typingIn context code) code
  String.join (withTexts 0 ((placed.map Token.Placed.position).zip texts) tokens)

def maxRounds : Nat := 4

/-- At most so many rounds; a source that still changes in the last one is reported. -/
def rounds (context : String) : Nat → String → Noted String
  | 0, source => do
      Noted.note (.coercionUnsettled maxRounds)
      return source
  | remaining + 1, source =>
    let after := round context source
    if after == source then pure source else rounds context remaining after

/-- Coerces numbers in a source. The declarations of the context count too. -/
def coerce (context source : String) : Noted String :=
  rounds context maxRounds source

end WebShader.Coercion
