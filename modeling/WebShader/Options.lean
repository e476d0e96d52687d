/-!
Contract: the choices a caller makes for a compilation.

Owns: one record of options with its default values.

Does not own: any effect of them.
-/

namespace WebShader

/-- Options of a compilation. `modern` selects the newer of the two output
dialects; the prefixes and names are those of generated identifiers. -/
structure Options where
  modern : Bool := true
  floatPrecision : String := "highp"
  intPrecision : String := "highp"
  legacyFloatPrecision : String := "mediump"
  maxIncludeDepth : Int := 20
  predefinedMacros : List (String × String) := []
  parameterPrefix : String := "PARAM_"
  channelPrefix : String := "v_"
  transformUniform : String := "MVP"
  positionAttribute : String := "Position"
  texcoordAttribute : String := "TexCoord"
  texcoordChannel : String := "vTexCoord"
  deriving DecidableEq, Repr

end WebShader
