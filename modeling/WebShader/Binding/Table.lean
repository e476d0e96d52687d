import WebShader.Binding.Basic
import WebShader.SpanSet
import WebShader.Text.Reader
import WebShader.Token.Query

/-!
Contract: the binding table of a source.

Owns: recognising samplers, push constants and uniform blocks, and reading the
members of a block.

Does not own: how bindings become plain uniforms; that is `Lowering`.

Bindings stand in source order. A declaration that starts inside a comment is
none.
-/

namespace WebShader.Binding

open Text Reader

def commentSpans (source : String) : SpanSet :=
  SpanSet.ofList (((Token.lex source).filter (·.kind == .comment)).map fun token =>
    ((token.start : Int), (token.stop : Int)))

/-- The opening `layout(...) uniform`; the answer is the text of the qualifiers. -/
def layoutUniform : Reader String := do
  literal "layout"
  blanks
  literal "("
  let qualifiers ← through ')'
  blanks
  literal "uniform"
  someBlanks
  return qualifiers

def precision : Reader Unit := do
  let _ ← literalIn precisionQualifiers
  someBlanks

/-- A sampler type: `sampler` with a suffix, and an `i` or `u` in front for integer ones. -/
def samplerType : Reader String := do
  let lead ← Reader.optional (literalIn ["i", "u"])
  literal "sampler"
  let suffix ← word
  return lead.getD "" ++ "sampler" ++ suffix

structure SamplerText where
  qualifiers : String
  typeName : String
  name : String
  array : Option String

def samplerText : Reader SamplerText := do
  let qualifiers ← layoutUniform
  let _ ← Reader.optional precision
  let typeName ← samplerType
  someBlanks
  let name ← word
  blanks
  let array ← Reader.optional bracketed
  blanks
  literal ";"
  return { qualifiers, typeName, name, array }

structure BlockHead where
  qualifiers : String
  typeName : String

def blockHead : Reader BlockHead := do
  let qualifiers ← layoutUniform
  let typeName ← word
  blanks
  literal "\x7b"
  return { qualifiers, typeName }

/-- What follows a block's closing brace: an instance name and an array size, both optional. -/
def blockTail : Reader (Option String × Option String) := do
  blanks
  let name ← Reader.optional word
  blanks
  let array ← Reader.optional bracketed
  blanks
  literal ";"
  return (name, array)

/-- Offset of the brace that closes a text entered at depth one. -/
def closingBrace? (text : String) : Option Nat :=
  let tokens := Token.lex text
  (Token.closingDistance? "\x7b" "\x7d" 1 tokens).bind fun distance =>
    tokens[distance]?.map Token.start

def memberLayout : Reader Unit := do
  literal "layout"
  blanks
  literal "("
  let _ ← through ')'

/-- The first word of a text and what follows it, without blanks between. -/
def splitFirstWord? (text : List Char) : Option (String × List Char) :=
  let trimmed := text.dropWhile isBlank
  let first := trimmed.takeWhile (!isBlank ·)
  if first.isEmpty then none
  else some (String.ofList first, (trimmed.dropWhile (!isBlank ·)).dropWhile isBlank)

theorem splitFirstWord?_length {text rest : List Char} {first : String}
    (found : splitFirstWord? text = some (first, rest)) : rest.length < text.length := by
  unfold splitFirstWord? at found
  simp only at found
  split at found
  · cases found
  · rename_i nonempty
    simp only [Option.some.injEq, Prod.mk.injEq] at found
    obtain ⟨-, rfl⟩ := found
    have cut : (List.dropWhile isBlank text).length ≤ text.length :=
      (List.dropWhile_suffix _).length_le
    have parts : (List.takeWhile (fun x => !isBlank x) (List.dropWhile isBlank text)).length +
        (List.dropWhile (fun x => !isBlank x) (List.dropWhile isBlank text)).length =
        (List.dropWhile isBlank text).length := by
      rw [← List.length_append, List.takeWhile_append_dropWhile]
    have some_taken :
        0 < (List.takeWhile (fun x => !isBlank x) (List.dropWhile isBlank text)).length := by
      simpa [List.length_pos_iff] using nonempty
    have last : (List.dropWhile isBlank
        (List.dropWhile (fun x => !isBlank x) (List.dropWhile isBlank text))).length ≤
        (List.dropWhile (fun x => !isBlank x) (List.dropWhile isBlank text)).length :=
      (List.dropWhile_suffix _).length_le
    omega

/-- The type of a member declaration and its declarators; precision words are skipped. -/
def memberParts? (text : List Char) : Option (String × List Char) :=
  match _found : splitFirstWord? text with
  | none => none
  | some (first, rest) =>
    if precisionQualifiers.contains first then memberParts? rest
    else if rest.isEmpty then none
    else some (first, rest)
termination_by text.length
decreasing_by exact splitFirstWord?_length _found

/-- A declarator: a name and an optional array size, and nothing else. -/
def declarator : Reader (String × Option String) := do
  let name ← word
  blanks
  let array ← Reader.optional bracketed
  atEnd
  return (name, array)

private def withoutSpaces (text : String) : String :=
  String.ofList (text.toList.filter (· != ' '))

def addMember (members : List BlockMember) (member : BlockMember) : List BlockMember :=
  if (members.map BlockMember.name).contains member.name then members else members ++ [member]

def statementMembers (statement : List Char) : List BlockMember :=
  let plain := replaceAll anywhere memberLayout (fun _ => " ") (String.ofList statement)
  match memberParts? (trimWhere isBlank plain.toList) with
  | none => []
  | some (typeName, declarators) =>
    (splitAtEach ',' declarators).filterMap fun part =>
      (declarator.read? (trimWhere isBlank part)).map fun found =>
        { typeName, name := found.1.1, arraySuffix := withoutSpaces (found.1.2.getD "") }

def membersOf (body : String) : List BlockMember :=
  let code := String.join ((Token.lex body).map fun token =>
    if token.kind == .comment then " " else token.text)
  ((splitAtEach ';' code.toList).flatMap statementMembers).foldl addMember []

/-- The binding of a sampler. One without a slot is no binding, and neither is an array. -/
def ofSampler (found : Found SamplerText) : Noted (Option Binding) :=
  let layout := Layout.ofText found.value.qualifiers
  if !layout.has "binding" then pure none
  else
    match found.value.array with
    | some array => do
        Noted.note (.samplerArray found.value.name array)
        return none
    | none => do
        let set ← layout.int? "set"
        let slot ← layout.int? "binding"
        return some
          { kind := .sampler, set := set.getD 0, slot, typeName := found.value.typeName,
            instanceName := some found.value.name, members := [],
            start := found.start, stop := found.stop }

def blockKind? (layout : Layout) : Option BindingKind :=
  if layout.has "push_constant" then some .pushConstant
  else if layout.has "binding" then some .uniformBlock
  else none

/-- The binding of a block, read from its head to its terminating semicolon. -/
def ofBlock (source : String) (found : Found BlockHead) : Noted (Option Binding) :=
  let layout := Layout.ofText found.value.qualifiers
  let typeName := found.value.typeName
  match blockKind? layout with
  | none => pure none
  | some kind =>
    let inside := String.ofList (source.toList.drop found.stop)
    match closingBrace? inside with
    | none => do
        Noted.note (.unterminatedBlock typeName)
        return none
    | some bodyLength =>
      let after := inside.toList.drop (bodyLength + 1)
      match blockTail.read? after with
      | none => do
          Noted.note (.blockWithoutSemicolon typeName)
          return none
      | some ((instanceName, some array), _) => do
          Noted.note (.blockArray instanceName array)
          return none
      | some ((instanceName, none), rest) => do
          let set ← layout.int? "set"
          let slot ← layout.int? "binding"
          return some
            { kind, set := set.getD 0, slot, typeName, instanceName,
              members := membersOf (slice inside 0 bodyLength),
              start := found.start,
              stop := found.stop + bodyLength + 1 + (after.length - rest.length) }

def table (source : String) : Noted (List Binding) := do
  let comments := commentSpans source
  let outside {α : Type} (found : Found α) : Bool := !comments.contains found.start
  let samplers ← ((findAll anywhere samplerText source).filter outside).mapM ofSampler
  let blocks ← ((findAll anywhere blockHead source).filter outside).mapM (ofBlock source)
  let found := (samplers ++ blocks).filterMap id
  return found.mergeSort fun left right => left.start ≤ right.start

end WebShader.Binding
