import KeyExport.Options.Basic
import KeyExport.Rendering
import KeyExport.Text.Base64

/-!
# Key elements

A key is written as one element. It is identified by its name or, below a given parent, by the rest of
its name. A short text on one line is an attribute; other values and the comment are child elements.

Whitespace that only helps the eye stands in fragments of its own, which a condensed element lacks.
-/

namespace KeyExport.Xml

open Bytes (ofString)

/-- Whitespace for the eye. -/
def cosmetic (condensed : Bool) (s : String) : List Bytes := if condensed then [] else [ofString s]

theorem flatten_cosmetic_append (condensed : Bool) (s t : String) :
    (cosmetic condensed (s ++ t)).flatten =
      (cosmetic condensed s).flatten ++ (cosmetic condensed t).flatten := by
  cases condensed <;> simp [cosmetic]

inductive Naming where
  | name (s : String)
  | basename (rest : Bytes)
deriving DecidableEq

/-- What is left of `name` without a parent and the separators that follow. Of the parent the first
`size` bytes count, all of it when `size` is zero. -/
def basename? (name parent : Bytes) (size : Nat) : Option Bytes :=
  let skip := if size = 0 then parent.length else size
  if skip ≤ parent.length ∧ skip ≤ name.length ∧ name.take skip = parent.take skip then
    match (name.drop skip).dropWhile (· == 0x2F) with
    | [] => none
    | rest => some rest
  else none

/-- A parent and how many of its bytes count. -/
structure Parent where
  name : String
  size : Nat := 0

/-- A basename where there is one, else the name; only names are qualified. -/
def Naming.ofKey (k : Key) (parent : Option Parent) (o : Options) : Except NameTooLong Naming :=
  match parent.bind fun p => basename? (ofString k.name) (ofString p.name) p.size with
  | some rest => .ok (.basename rest)
  | none => if o.fullName then (k.fullName o.numbers).map .name else .ok (.name k.name)

def Naming.fragments : Naming → List Bytes
  | name s => [ofString "<key name=\"", ofString s, ofString "\""]
  | basename rest => [ofString "<key basename=\"", rest, ofString "\""]

/-- The most bytes of a text that is written as an attribute. -/
def maxAttributeLength : Nat := 16

def fitsAttribute (s : String) : Bool := s.utf8ByteSize ≤ maxAttributeLength && !s.toList.contains '\n'

theorem fitsAttribute_iff {s : String} :
    fitsAttribute s = true ↔ s.utf8ByteSize ≤ 16 ∧ '\n' ∉ s.toList := by
  rw [fitsAttribute, Bool.and_eq_true, decide_eq_true_eq]
  simp [maxAttributeLength]

def valueAttribute (condensed : Bool) (s : String) : List Bytes :=
  [ofString (if condensed then " " else "\n\t"), ofString "value=\"", ofString s, ofString "\""]

def commentElement (condensed : Bool) (s : String) : List Bytes :=
  cosmetic condensed "     " ++ [ofString "<comment><![CDATA[", ofString s, ofString "]]></comment>"] ++
    cosmetic condensed "\n"

/-- From the line after the value to the end of the element. -/
def ending (condensed : Bool) (comment : Option String) : List Bytes :=
  cosmetic condensed "\n" ++ comment.elim [] (commentElement condensed) ++ [ofString "</key>"] ++
    cosmetic condensed "\n\n"

def textElement (condensed : Bool) (s : String) : List Bytes :=
  cosmetic condensed "\n\n     " ++ [ofString "<value><![CDATA[", ofString s, ofString "]]></value>"]

def binaryElement (condensed : Bool) (data : Bytes) : List Bytes :=
  cosmetic condensed "\n\n     " ++ [ofString "<value>"] ++ cosmetic condensed "\n" ++
    [Base64.encode data] ++ cosmetic condensed "\n" ++ [ofString "</value>"]

/-- All that follows the naming attribute. -/
def body (condensed : Bool) : Value → Option String → List Bytes
  | .absent, none => ofString "/>" :: cosmetic condensed "\n\n"
  | .absent, some c => ofString ">" :: cosmetic condensed "\n" ++ ending condensed (some c)
  | .text s, comment =>
    if fitsAttribute s then
      valueAttribute condensed s ++
        match comment with
        | none => ofString "/>" :: cosmetic condensed "\n"
        | some c => ofString ">" :: cosmetic condensed "\n" ++ ending condensed (some c)
    else ofString ">" :: textElement condensed s ++ ending condensed comment
  | .binary data, comment => ofString ">" :: binaryElement condensed data ++ ending condensed comment

def element (naming : Naming) (k : Key) (condensed : Bool) : List Bytes :=
  naming.fragments ++ body condensed k.value k.comment

/-- A key below a parent, if there is one. A key whose name is refused leaves nothing behind. -/
def key (k : Key) (parent : Option Parent) (o : Options) : Rendering :=
  match Naming.ofKey k parent o with
  | .ok naming => { fragments := element naming k o.condensed }
  | .error e => .refuse e

end KeyExport.Xml
