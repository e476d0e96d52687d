import WebShader.Text.UnprintableRanges
import WebShader.Text.Class

/-!
Contract: the quoted form of a text inside a message.

Owns: the choice of quote, the escapes of backslash, quote, the common
controls and every unprintable character, and the cut of a long quotation.

Does not own: which messages quote their subject.
-/

namespace WebShader.Text

def isPrintable (c : Char) : Bool :=
  32 ≤ c.toNat && !inRanges unprintableRanges c.toNat

/-- One character of a quotation that is closed by `quote`. -/
def quoteChar (quote c : Char) : List Char :=
  if c == quote || c == '\\' then ['\\', c]
  else if c == '\t' then ['\\', 't']
  else if c == '\n' then ['\\', 'n']
  else if c == '\r' then ['\\', 'r']
  else if isPrintable c then [c]
  else if c.toNat ≤ 0xFF then '\\' :: 'x' :: hexDigits 2 c.toNat
  else if c.toNat ≤ 0xFFFF then '\\' :: 'u' :: hexDigits 4 c.toNat
  else '\\' :: 'U' :: hexDigits 8 c.toNat

private def apostrophe : Char := Char.ofNat 39

/-- A quoted text. Single quotes enclose it, unless it holds one and no double quote. -/
def quote (text : String) : String :=
  let characters := text.toList
  let mark := if characters.contains apostrophe && !characters.contains '"' then '"' else apostrophe
  String.ofList (mark :: characters.flatMap (quoteChar mark) ++ [mark])

/-- At most so many characters of a quotation, its marks included. A longer one
is cut off, and nothing closes it. -/
def quoteWithin (limit : Nat) (text : String) : String :=
  String.ofList ((quote text).toList.take limit)

end WebShader.Text
