import KeyExport.KeySet
import KeyExport.Xml.Element

/-!
# Documents

A document holds the elements of all keys of a set in their order. In the hierarchical layout it names
the common parent, if there is one, and the elements are named relative to it. It ends where a key's name
is refused, after the elements before that key.
-/

namespace KeyExport.Xml

open Bytes (ofString ofNat)

def keysetNamespace : String := "https://www.libelektra.org"

def xsiNamespace : String := "http://www.w3.org/2001/XMLSchema-instance"

def schemaLocation : String := "https://www.libelektra.org elektra.xsd"

/-- Declaration, the number of keys, and the start of the root with its schema. -/
def header (condensed : Bool) (count : Nat) : List Bytes :=
  let separator := ofString (if condensed then " " else "\n\t")
  [ofString "<?xml version=\"1.0\" encoding=\"UTF-8\"?>"] ++
    (if condensed then []
    else [ofString "\n<!-- Generated by keystream. Total of ", ofNat count, ofString " keys. -->\n"]) ++
    [ofString "<keyset xmlns=\"", ofString keysetNamespace, ofString "\"", separator,
      ofString "xmlns:xsi=\"", ofString xsiNamespace, ofString "\"", separator,
      ofString "xsi:schemaLocation=\"", ofString schemaLocation, ofString "\""] ++
    cosmetic condensed "\n"

/-- The parent that elements are named relative to. -/
def parent? (ks : KeySet) (o : Options) : Option String :=
  if o.hierarchical then ks.commonParent? else none

/-- All that precedes the first element. -/
def opening (ks : KeySet) (o : Options) : List Bytes :=
  (if o.emitsXmlHeader then header o.condensed ks.size else [ofString "<keyset"]) ++
    match parent? ks o with
    | some p => [ofString "        parent=\"", ofString p, ofString "\">\n"]
    | none => [ofString ">\n"]

def elements (ks : KeySet) (o : Options) : Rendering :=
  let parent := (parent? ks o).map ({ name := · })
  .concat (ks.keys.map fun k => key k parent o)

def document (ks : KeySet) (o : Options) : Rendering :=
  { fragments := opening ks o } ++ elements ks o ++ { fragments := [ofString "</keyset>\n"] }

end KeyExport.Xml
