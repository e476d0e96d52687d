/-!
Contract: the two stages of a shader.

Owns: the stages, and the working form of one stage between the passes.

Does not own: dividing a source into stages; that is `Stage.Split`.
-/

namespace WebShader

inductive Stage where
  | vertex
  | fragment
  deriving DecidableEq, Repr

/-- A stage at work. Entry statements run first in `main`, exit statements
right before it returns. -/
structure StageProgram where
  stage : Stage
  source : String
  entry : List String
  exit : List String
  deriving DecidableEq, Repr

end WebShader
