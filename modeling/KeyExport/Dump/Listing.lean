import KeyExport.KeySet
import KeyExport.Options.Basic
import KeyExport.Rendering

/-!
# Listings

A listing shows each key on a line of its own. Names, texts and comments are preceded by their sizes, and
what has no content is left out; binary content is shown up to its first zero byte. A listing resolves no
names, so it is never refused.
-/

namespace KeyExport.Dump

open Bytes (ofString ofNat)

/-- A size in brackets, the content, and a separator. -/
def field (label : String) (size : Nat) (content : Bytes) : List Bytes :=
  [ofString label, ofNat size, ofString "]: ", content, ofString " : "]

def nameField (k : Key) : List Bytes :=
  if 1 < k.nameSize then field "Name[" k.nameSize (ofString k.name) else []

def valueField (k : Key) : List Bytes :=
  if 1 < k.valueSize then
    match k.value with
    | .absent => []
    | .text s => field "String[" k.valueSize (ofString s)
    | .binary data => field "Binary[" k.valueSize (data.takeWhile (· != 0))
  else []

def commentField (k : Key) : List Bytes :=
  match k.comment with
  | some c => if 1 < k.commentSize then field "Comment[" k.commentSize (ofString c) else []
  | none => []

/-- Letters for a binary value, a text, and a key that has to be stored. -/
def codes (k : Key) : List Bytes :=
  (if k.isBinary then [ofString "b"] else []) ++ (if k.isText then [ofString "s"] else []) ++
    if k.needsSync then [ofString "s"] else []

def line (k : Key) (o : Options) : List Bytes :=
  nameField k ++ (if o.keyValue then valueField k else []) ++
    (if o.keyMeta then commentField k else []) ++ (if o.showMeta then [ofString " : "] else []) ++
    (if o.showFlags then
      (if o.showMeta then [] else [ofString " "]) ++ [ofString "Flags: "] ++ codes k
    else []) ++ [ofString "\n"]

def indexed (o : Options) (i : Nat) : List Bytes :=
  if o.showIndices then [ofString "[", ofNat i, ofString "] "] else []

def lines (o : Options) (i : Nat) : List Key → List Bytes
  | [] => []
  | k :: ks => indexed o i ++ line k o ++ lines o (i + 1) ks

def listing (ks : KeySet) (o : Options) : List Bytes :=
  (if o.header then [ofString "Output keyset of size ", ofNat ks.size, ofString "\n"] else []) ++
    lines o 0 ks.keys

def key (k : Key) (o : Options) : Rendering := { fragments := line k o }

def keySet (ks : KeySet) (o : Options) : Rendering := { fragments := listing ks o }

end KeyExport.Dump
