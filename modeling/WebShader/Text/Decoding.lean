import WebShader.Text.Basic

/-!
Contract: text from bytes.

Owns: the encodings, the first place where bytes are not text, and its wording.

Does not own: reading bytes.
-/

namespace WebShader.Text

inductive Encoding where
  | utf8
  | ascii
  | latin1
  deriving DecidableEq, Repr

def Encoding.label : Encoding → String
  | .utf8 => "utf-8"
  | .ascii => "ascii"
  | .latin1 => "latin-1"

inductive DecodingCause where
  | startByte
  | continuationByte
  | endOfData
  | beyondAscii
  deriving DecidableEq, Repr

def DecodingCause.text : DecodingCause → String
  | .startByte => "invalid start byte"
  | .continuationByte => "invalid continuation byte"
  | .endOfData => "unexpected end of data"
  | .beyondAscii => "ordinal not in range(128)"

/-- The bytes from `start` up to `stop` are not text; `first` is the first of them. -/
structure DecodingFault where
  encoding : Encoding
  first : UInt8
  start : Nat
  stop : Nat
  cause : DecodingCause
  deriving DecidableEq, Repr

def DecodingFault.message (fault : DecodingFault) : String :=
  let last := fault.stop - 1
  let place :=
    if fault.stop ≤ fault.start + 1 then
      "byte 0x" ++ String.ofList (hexDigits 2 fault.first.toNat) ++ s!" in position {fault.start}"
    else s!"bytes in position {fault.start}-{last}"
  "'" ++ fault.encoding.label ++ "' codec can't decode " ++ place ++ ": " ++ fault.cause.text

/-- A character under way: its bits so far, how many bytes it still needs, and
between which bounds the next one lies. -/
structure PartialCharacter where
  first : UInt8
  start : Nat
  value : Nat
  missing : Nat
  least : Nat
  most : Nat
  deriving DecidableEq, Repr

/-- The character that a byte starts. Bytes that could only start overlong forms,
surrogates or values past the last character are excluded by the bounds. -/
def startCharacter? (position : Nat) (byte : UInt8) : Option PartialCharacter :=
  let code := byte.toNat
  let started (value missing least most : Nat) : Option PartialCharacter :=
    some ⟨byte, position, value, missing, least, most⟩
  if code < 0x80 then started code 0 0x80 0xBF
  else if code < 0xC2 then none
  else if code < 0xE0 then started (code - 0xC0) 1 0x80 0xBF
  else if code == 0xE0 then started 0 2 0xA0 0xBF
  else if code == 0xED then started (code - 0xE0) 2 0x80 0x9F
  else if code < 0xF0 then started (code - 0xE0) 2 0x80 0xBF
  else if code == 0xF0 then started 0 3 0x90 0xBF
  else if code < 0xF4 then started (code - 0xF0) 3 0x80 0xBF
  else if code == 0xF4 then started (code - 0xF0) 3 0x80 0x8F
  else none

def decodeUtf8From (position : Nat) (open? : Option PartialCharacter) :
    List UInt8 → Except DecodingFault (List Char)
  | [] =>
    match open? with
    | none => .ok []
    | some character =>
      .error ⟨.utf8, character.first, character.start, position, .endOfData⟩
  | byte :: rest =>
    match open? with
    | none =>
      match startCharacter? position byte with
      | none => .error ⟨.utf8, byte, position, position + 1, .startByte⟩
      | some character =>
        if character.missing == 0 then
          (Char.ofNat character.value :: ·) <$> decodeUtf8From (position + 1) none rest
        else decodeUtf8From (position + 1) (some character) rest
    | some character =>
      let code := byte.toNat
      if code < character.least || character.most < code then
        .error ⟨.utf8, character.first, character.start, position, .continuationByte⟩
      else
        let value := character.value * 64 + (code - 0x80)
        if character.missing ≤ 1 then
          (Char.ofNat value :: ·) <$> decodeUtf8From (position + 1) none rest
        else
          decodeUtf8From (position + 1)
            (some { character with
              value, missing := character.missing - 1, least := 0x80, most := 0xBF })
            rest

def decodeAsciiFrom (position : Nat) : List UInt8 → Except DecodingFault (List Char)
  | [] => .ok []
  | byte :: rest =>
    if byte.toNat < 0x80 then
      (Char.ofNat byte.toNat :: ·) <$> decodeAsciiFrom (position + 1) rest
    else .error ⟨.ascii, byte, position, position + 1, .beyondAscii⟩

def decode (encoding : Encoding) (bytes : List UInt8) : Except DecodingFault (List Char) :=
  match encoding with
  | .utf8 => decodeUtf8From 0 none bytes
  | .ascii => decodeAsciiFrom 0 bytes
  | .latin1 => .ok (bytes.map fun byte => Char.ofNat byte.toNat)

/-- Every kind of line end as a line feed. -/
def unifyLineEnds : List Char → List Char
  | [] => []
  | '\r' :: '\n' :: rest => '\n' :: unifyLineEnds rest
  | c :: rest => (if c == '\r' then '\n' else c) :: unifyLineEnds rest

end WebShader.Text
