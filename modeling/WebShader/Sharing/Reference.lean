import WebShader.Sharing.Channel
import WebShader.Sharing.Usage

/-!
Contract: putting a channel in the place of a global.

Owns: the new text of every reference, and the conversions around assigned
expressions where channel and global differ in type.

Does not own: the declarations of either.
-/

namespace WebShader.Sharing

open Token (Placed)

inductive ReferenceUse where
  | assigned
  | updated
  | read
  deriving DecidableEq, Repr

def referenceUse (previous next : Option Token) : ReferenceUse :=
  if next.any (·.isPunct "=") then .assigned
  else if next.any fun token =>
      assignmentOperators.contains token.text || token.isPunctIn Usage.stepOperators then .updated
  else if previous.any (·.isPunctIn Usage.stepOperators) then .updated
  else .read

def referenceText (channel : Channel) (use : ReferenceUse) : String :=
  if use == .read then channel.read else channel.name

/-- Position of the token that ends the expression at the front. -/
def expressionEnd? (depth : Nat) : List Placed → Option Nat
  | [] => none
  | entry :: rest =>
    if entry.token.isPunctIn ["(", "[", "\x7b"] then expressionEnd? (depth + 1) rest
    else if entry.token.isPunctIn [")", "]", "\x7d"] then
      if depth == 0 then some entry.position else expressionEnd? (depth - 1) rest
    else if depth == 0 && entry.token.isPunctIn [";", ","] then some entry.position
    else expressionEnd? depth rest

/-- A conversion around the expression from one position up to another. -/
structure Conversion where
  start : Nat
  stop : Nat
  deriving DecidableEq, Repr

def conversion? (afterEquals : List Placed) : Option Conversion :=
  match afterEquals with
  | [] => none
  | entry :: _ => (expressionEnd? 0 afterEquals).map fun stop => ⟨entry.position, stop⟩

structure Edits where
  texts : List (Nat × String)
  conversions : List Conversion
  deriving DecidableEq, Repr

def editsFrom (name : String) (channel : Channel) (previous : Option Token) :
    List Placed → Edits
  | [] => ⟨[], []⟩
  | entry :: rest =>
    let others := editsFrom name channel (some entry.token) rest
    if entry.token.isWord name && !Token.selectsMember previous then
      let use := referenceUse previous (rest.head?.map Placed.token)
      let here :=
        if channel.converts && use == .assigned then (conversion? (rest.drop 1)).toList else []
      ⟨(entry.position, referenceText channel use) :: others.texts,
        here ++ others.conversions⟩
    else others

/-- What stands in front of a position: calls open after those already there,
and closing brackets come first. -/
def insertedBefore (opener : String) (conversions : List Conversion) (position : Nat) : String :=
  conversions.foldl
    (fun text conversion =>
      let opened := if conversion.start == position then text ++ opener else text
      if conversion.stop == position then ")" ++ opened else opened)
    ""

/-- The text with edits applied from a position on. The edited positions ascend. -/
def applyEdits (opener : String) (conversions : List Conversion) :
    Nat → List (Nat × String) → List Token → List String
  | _, _, [] => []
  | position, texts, token :: rest =>
    let inserted := insertedBefore opener conversions position
    match texts with
    | (edited, text) :: others =>
      if edited == position then
        inserted :: text :: applyEdits opener conversions (position + 1) others rest
      else inserted :: token.text :: applyEdits opener conversions (position + 1) texts rest
    | [] => inserted :: token.text :: applyEdits opener conversions (position + 1) [] rest

/-- Refers to the channel wherever a source refers to the global. -/
def redirectReferences (name : String) (channel : Channel) (source : String) : String :=
  let tokens := Token.lex source
  let edits := editsFrom name channel none (Token.significant tokens)
  String.join (applyEdits (channel.typeName ++ "(") edits.conversions 0 edits.texts tokens)

end WebShader.Sharing
