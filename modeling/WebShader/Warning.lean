import WebShader.Condition.Fault
import WebShader.Fault

/-!
Contract: what a pass reports and recovers from.

Owns: the causes of warnings and the wording of each.

Does not own: the recovery; each pass says what it does instead.
-/

namespace WebShader

inductive GroupDirective where
  | elif
  | otherwise
  | endif
  deriving DecidableEq, Repr

def GroupDirective.label : GroupDirective → String
  | .elif => "#elif"
  | .otherwise => "#else"
  | .endif => "#endif"

inductive Warning where
  | unterminatedGroups (count : Nat)
  | directiveOutsideGroup (directive : GroupDirective)
  | malformedDefine (argument : String)
  | conditionWithoutValue (expression : String) (cause : Condition.Fault)
  | malformedParameter (line : Nat) (text : String)
  | nonNumericLayout (text : String)
  | samplerArray (name : String) (array : String)
  | unterminatedBlock (name : String)
  | blockWithoutSemicolon (name : String)
  | blockArray (instanceName : Option String) (array : String)
  | malformedPreambleDefine (text : String)
  | repeatedGlobal (name : String)
  | repeatedStage (name : String)
  | unknownStage (name : String)
  | notAMember (instanceName : String) (member : String) (block : String)
  | notCarriable (name : String) (typeName : String) (array : String)
  | coercionUnsettled (rounds : Nat)
  | noMain (entries : Nat) (exits : Nat)
  | severalColors (names : List String)
  | circularInclude (target : String) (stack : List String)
  | includeFailed (target : String) (cause : Fault)
  | missingPass (count : Int) (index : Nat)
  | textureWithoutPath (name : String)
  | overrideWithoutNumber (name : String) (text : String)
  | expectedInteger (text : String)
  | referenceNotFollowed (path : String) (reference : String)
  deriving DecidableEq, Repr

namespace Warning

def message : Warning → String
  | .unterminatedGroups count =>
    s!"{count} unterminated conditional block(s) at end of source"
  | .directiveOutsideGroup directive =>
    directive.label ++ " without matching #if ignored"
  | .malformedDefine argument => "Malformed #define ignored: " ++ argument
  | .conditionWithoutValue expression cause =>
    "Cannot evaluate condition '" ++ expression ++ "' (" ++ cause.message ++
      "); treating as false"
  | .malformedParameter line text => s!"Malformed parameter pragma on line {line}: " ++ text
  | .nonNumericLayout text => "Non-numeric layout value '" ++ text ++ "'"
  | .samplerArray name array =>
    "Sampler array " ++ name ++ array ++ " is not supported; ignored"
  | .unterminatedBlock name => "Unterminated uniform block " ++ name
  | .blockWithoutSemicolon name =>
    "Uniform block " ++ name ++ " is missing its terminating ';'"
  | .blockArray instanceName array =>
    "Uniform block array " ++ instanceName.getD "None" ++ array ++ " is not supported; ignored"
  | .malformedPreambleDefine text => "Malformed #define in preamble: " ++ text
  | .repeatedGlobal name =>
    "Global " ++ name ++ " declared twice; keeping the first declaration"
  | .repeatedStage name =>
    "Stage '" ++ name ++ "' declared twice; sections are concatenated"
  | .unknownStage name => "Unknown stage '" ++ name ++ "' ignored"
  | .notAMember instanceName member block =>
    instanceName ++ "." ++ member ++ " is not a member of " ++ block
  | .notCarriable name typeName array =>
    "Global " ++ name ++ " (" ++ typeName ++ array ++ ") cannot be carried to the fragment stage"
  | .coercionUnsettled rounds => s!"Numeric coercion did not settle after {rounds} rounds"
  | .noMain entries exits =>
    s!"No main() found; {entries} entry and {exits} exit statement(s) dropped"
  | .severalColors names =>
    "Legacy output supports one color target; " ++ String.intercalate ", " names ++
      " all map to gl_FragColor"
  | .circularInclude target stack =>
    "Circular include of " ++ target ++ " (stack: " ++ String.intercalate " -> " stack ++ ")"
  | .includeFailed target cause => "Failed to include " ++ target ++ ": " ++ cause.text
  | .missingPass count index =>
    s!"Preset declares {count} shaders but shader{index} is missing"
  | .textureWithoutPath name => "Texture " ++ name ++ " has no path"
  | .overrideWithoutNumber name text =>
    "Parameter override " ++ name ++ " = " ++ text ++ " is not a number"
  | .expectedInteger text => "Expected an integer, got '" ++ text ++ "'"
  | .referenceNotFollowed path reference =>
    "Preset " ++ path ++ " references " ++ reference ++ "; referenced presets are not followed"

end Warning

end WebShader
