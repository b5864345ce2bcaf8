import KeyExport.Proofs.Markup.Scan
import KeyExport.Proofs.Xml.Naming

/-!
# The markup of documents

The tokens of an element and of a document, of which their bytes consist. Whitespace that a rendering
hands over in several fragments is one text here, so that no two texts stand side by side.
-/

namespace KeyExport.Xml

open Bytes (ofString ofNat)
open Markup

/-- Whitespace for the eye between two tags. -/
def gap (condensed : Bool) (s : String) : List Token :=
  if condensed then [] else [.text (ofString s)]

def named (lead name : String) (value : Bytes) : Attribute := ⟨ofString lead, ofString name, value⟩

def keyTag (attributes : List Attribute) (closed : Bool) : Token :=
  .startTag (ofString "key") attributes [] closed

def childTag (name : String) : Token := .startTag (ofString name) [] [] false

def endTag (name : String) : Token := .endTag (ofString name)

/-- The attribute that tells which key an element belongs to. -/
def Naming.identifier : Naming → Attribute
  | name s => named " " "name" (ofString s)
  | basename rest => named " " "basename" rest

def valueToken (condensed : Bool) (s : String) : Attribute :=
  named (if condensed then " " else "\n\t") "value" (ofString s)

/-- From the whitespace after the value to the end of the element. -/
def endingTokens (condensed : Bool) (before : String) : Option String → List Token
  | none => gap condensed (before ++ "\n") ++ endTag "key" :: gap condensed "\n\n"
  | some c =>
    gap condensed (before ++ ("\n" ++ "     ")) ++
      childTag "comment" :: .data (ofString c) :: endTag "comment" :: gap condensed "\n" ++
        endTag "key" :: gap condensed "\n\n"

def textTokens (condensed : Bool) (s : String) : List Token :=
  gap condensed "\n\n     " ++ [childTag "value", .data (ofString s), endTag "value"]

/-- Empty content of a condensed element is no text at all. -/
def payload (condensed : Bool) (b : Bytes) : List Token :=
  if condensed then if b = [] then [] else [.text b]
  else [.text (ofString "\n" ++ (b ++ ofString "\n"))]

def binaryTokens (condensed : Bool) (data : Bytes) : List Token :=
  gap condensed "\n\n     " ++
    childTag "value" :: payload condensed (Base64.encode data) ++ [endTag "value"]

def elementTokens (naming : Naming) (condensed : Bool) : Value → Option String → List Token
  | .absent, none => keyTag [naming.identifier] true :: gap condensed "\n\n"
  | .absent, some c => keyTag [naming.identifier] false :: endingTokens condensed "\n" (some c)
  | .text s, comment =>
    if fitsAttribute s then
      match comment with
      | none => keyTag [naming.identifier, valueToken condensed s] true :: gap condensed "\n"
      | some c =>
        keyTag [naming.identifier, valueToken condensed s] false ::
          endingTokens condensed "\n" (some c)
    else
      keyTag [naming.identifier] false :: textTokens condensed s ++ endingTokens condensed "" comment
  | .binary data, comment =>
    keyTag [naming.identifier] false :: binaryTokens condensed data ++
      endingTokens condensed "" comment

theorem flatMap_bytes_gap (condensed : Bool) (s : String) :
    (gap condensed s).flatMap Token.bytes = (cosmetic condensed s).flatten := by
  cases condensed <;> simp [gap, cosmetic, Token.bytes]

theorem flatten_cosmetic_empty (condensed : Bool) : (cosmetic condensed "").flatten = [] := by
  cases condensed <;> rfl

theorem bytes_keyTag (naming : Naming) (attributes : List Attribute) (closed : Bool) :
    (keyTag (naming.identifier :: attributes) closed).bytes =
      naming.fragments.flatten ++ (attributes.flatMap Attribute.bytes ++ tagEnd closed) := by
  cases naming with
  | name s =>
    simp only [keyTag, Token.bytes, List.flatMap_cons, Naming.identifier, named, Attribute.bytes,
      Naming.fragments, List.flatten_cons, List.flatten_nil, List.append_assoc, List.nil_append]
    rfl
  | basename rest =>
    simp only [keyTag, Token.bytes, List.flatMap_cons, Naming.identifier, named, Attribute.bytes,
      Naming.fragments, List.flatten_cons, List.flatten_nil, List.append_assoc, List.nil_append]
    rfl

theorem bytes_valueToken (condensed : Bool) (s : String) :
    (valueToken condensed s).bytes = (valueAttribute condensed s).flatten := by
  simp only [valueToken, named, Attribute.bytes, valueAttribute, List.flatten_cons,
    List.flatten_nil]
  rfl

theorem bytes_endingTokens (condensed : Bool) (before : String) (comment : Option String) :
    (endingTokens condensed before comment).flatMap Token.bytes =
      (cosmetic condensed before).flatten ++ (ending condensed comment).flatten := by
  cases comment with
  | none =>
    simp only [endingTokens, ending, List.flatMap_append, List.flatMap_cons, flatMap_bytes_gap,
      flatten_cosmetic_append, List.flatten_append, List.flatten_cons, List.flatten_nil, Option.elim,
      List.append_assoc, List.append_nil]
    rfl
  | some c =>
    simp only [endingTokens, ending, commentElement, List.flatMap_append, List.flatMap_cons,
      flatMap_bytes_gap, flatten_cosmetic_append, List.flatten_append, List.flatten_cons,
      Option.elim, List.append_assoc, List.cons_append, Token.bytes, childTag, endTag,
      List.flatMap_nil, List.nil_append]
    rfl

theorem bytes_textTokens (condensed : Bool) (s : String) :
    (textTokens condensed s).flatMap Token.bytes = (textElement condensed s).flatten := by
  simp only [textTokens, textElement, List.flatMap_append, List.flatMap_cons, flatMap_bytes_gap,
    List.flatten_append, List.flatten_cons, List.flatten_nil, List.append_assoc, List.append_nil,
    Token.bytes, childTag, endTag, List.flatMap_nil, List.nil_append]
  rfl

theorem bytes_payload (condensed : Bool) (b : Bytes) :
    (payload condensed b).flatMap Token.bytes =
      (cosmetic condensed "\n").flatten ++ (b ++ (cosmetic condensed "\n").flatten) := by
  cases condensed with
  | true => by_cases empty : b = [] <;> simp [payload, empty, Token.bytes, cosmetic]
  | false => simp [payload, Token.bytes, cosmetic]

theorem bytes_binaryTokens (condensed : Bool) (data : Bytes) :
    (binaryTokens condensed data).flatMap Token.bytes = (binaryElement condensed data).flatten := by
  simp only [binaryTokens, binaryElement, List.flatMap_append, List.flatMap_cons, flatMap_bytes_gap,
    bytes_payload, List.flatten_append, List.flatten_cons, List.flatten_nil, List.append_assoc,
    List.append_nil, Token.bytes, childTag, endTag, List.flatMap_nil, List.nil_append,
    List.cons_append]
  rfl

theorem bytes_elementTokens (naming : Naming) (k : Key) (condensed : Bool) :
    (elementTokens naming condensed k.value k.comment).flatMap Token.bytes =
      (element naming k condensed).flatten := by
  unfold element elementTokens body
  cases value : k.value with
  | absent =>
    cases k.comment with
    | none => simp [bytes_keyTag, flatMap_bytes_gap, tagEnd]
    | some c => simp [bytes_keyTag, bytes_endingTokens, tagEnd]
  | text s =>
    dsimp only
    split
    · cases k.comment with
      | none => simp [bytes_keyTag, bytes_valueToken, flatMap_bytes_gap, tagEnd]
      | some c => simp [bytes_keyTag, bytes_valueToken, bytes_endingTokens, tagEnd]
    · simp [bytes_keyTag, bytes_textTokens, bytes_endingTokens, tagEnd, flatten_cosmetic_empty]
  | binary data =>
    simp [bytes_keyTag, bytes_binaryTokens, bytes_endingTokens, tagEnd, flatten_cosmetic_empty]

/-! ## Documents -/

def schemaTokens (condensed : Bool) : List Attribute :=
  let separator := if condensed then " " else "\n\t"
  [named " " "xmlns" (ofString keysetNamespace), named separator "xmlns:xsi" (ofString xsiNamespace),
    named separator "xsi:schemaLocation" (ofString schemaLocation)]

/-- The declaration and the number of keys. -/
def prologTokens (condensed : Bool) (count : Nat) : List Token :=
  .declaration (ofString "xml version=\"1.0\" encoding=\"UTF-8\"") ::
    if condensed then []
    else
      [.text (ofString "\n"),
        .comment (ofString " Generated by keystream. Total of " ++ (ofNat count ++ ofString " keys. ")),
        .text (ofString "\n")]

/-- The start of the root; `blanks` stand between the schema and what follows it. -/
def rootTag (schema : List Attribute) (blanks : String) : Option String → Token
  | some p =>
    .startTag (ofString "keyset")
      (schema ++ [named (blanks ++ "        ") "parent" (ofString p)]) [] false
  | none => .startTag (ofString "keyset") schema (ofString blanks) false

def openingTokens (ks : KeySet) (o : Options) : List Token :=
  if o.emitsXmlHeader then
    prologTokens o.condensed ks.size ++
      [rootTag (schemaTokens o.condensed) (if o.condensed then "" else "\n") (parent? ks o),
        .text (ofString "\n")]
  else [rootTag [] "" (parent? ks o), .text (ofString "\n")]

def elementsTokens (ks : KeySet) (o : Options) : List Token :=
  ks.keys.flatMap fun k =>
    elementTokens (.stored k (documentParent ks o)) o.condensed k.value k.comment

def documentTokens (ks : KeySet) (o : Options) : List Token :=
  openingTokens ks o ++ (elementsTokens ks o ++ [endTag "keyset", .text (ofString "\n")])

/-- The tokens of a document that shows all its keys. -/
def shownTokens (ks : KeySet) (o : Options) : List Token :=
  openingTokens ks o ++
    ((ks.keys.flatMap fun k =>
        elementTokens (.shown k (documentParent ks o) o) o.condensed k.value k.comment) ++
      [endTag "keyset", .text (ofString "\n")])

theorem documentTokens_of_plain {o : Options} (plain : o.fullName = false) (ks : KeySet) :
    documentTokens ks o = shownTokens ks o := by
  simp only [documentTokens, elementsTokens, shownTokens, Naming.shown_of_plain plain]

theorem flatten_header (condensed : Bool) (count : Nat) :
    (header condensed count).flatten = (prologTokens condensed count).flatMap Token.bytes ++
      (ofString "<keyset" ++ ((schemaTokens condensed).flatMap Attribute.bytes ++
        (cosmetic condensed "\n").flatten)) := by
  have declaration : ofString "<?xml version=\"1.0\" encoding=\"UTF-8\"?>" =
      ofString "<?" ++ (ofString "xml version=\"1.0\" encoding=\"UTF-8\"" ++ ofString "?>") := rfl
  have generated : ofString "\n<!-- Generated by keystream. Total of " =
      ofString "\n" ++ (ofString "<!--" ++ ofString " Generated by keystream. Total of ") := rfl
  have keys : ofString " keys. -->\n" = ofString " keys. " ++ (ofString "-->" ++ ofString "\n") := rfl
  have root : ofString "<keyset xmlns=\"" =
      ofString "<keyset" ++ (ofString " " ++ (ofString "xmlns" ++ ofString "=\"")) := rfl
  have instances : ofString "xmlns:xsi=\"" = ofString "xmlns:xsi" ++ ofString "=\"" := rfl
  have location : ofString "xsi:schemaLocation=\"" =
      ofString "xsi:schemaLocation" ++ ofString "=\"" := rfl
  cases condensed <;>
    simp only [header, prologTokens, schemaTokens, named, Token.bytes, Attribute.bytes, cosmetic,
      declaration, generated, keys, root, instances, location, List.flatten_cons, List.flatten_nil,
      List.flatMap_cons, List.flatMap_nil, List.append_assoc, List.append_nil, List.nil_append,
      List.cons_append, Bool.false_eq_true, ↓reduceIte]

/-- From the schema to the line after the start of the root. -/
theorem bytes_rootTag (schema : List Attribute) (blanks : String) (parent : Option String) :
    [rootTag schema blanks parent, .text (ofString "\n")].flatMap Token.bytes =
      ofString "<keyset" ++ (schema.flatMap Attribute.bytes ++ (ofString blanks ++
        (match parent with
          | some p => [ofString "        parent=\"", ofString p, ofString "\">\n"]
          | none => [ofString ">\n"]).flatten)) := by
  have start : ofString "<keyset" = ofString "<" ++ ofString "keyset" := rfl
  have parentAttribute : ofString "        parent=\"" =
      ofString "        " ++ (ofString "parent" ++ ofString "=\"") := rfl
  have quoted : ofString "\">\n" = ofString "\"" ++ (ofString ">" ++ ofString "\n") := rfl
  have closed : ofString ">\n" = ofString ">" ++ ofString "\n" := rfl
  cases parent <;>
    simp only [rootTag, named, Token.bytes, Attribute.bytes, tagEnd, start, parentAttribute, quoted,
      closed, Bytes.ofString_append, List.flatMap_append, List.flatMap_cons, List.flatMap_nil,
      List.flatten_cons, List.flatten_nil, List.append_assoc, List.append_nil, List.nil_append,
      Bool.false_eq_true, ↓reduceIte]

theorem bytes_openingTokens (ks : KeySet) (o : Options) :
    (openingTokens ks o).flatMap Token.bytes = (opening ks o).flatten := by
  unfold openingTokens opening
  rw [List.flatten_append]
  cases o.emitsXmlHeader with
  | true =>
    have blanks : ofString (if o.condensed then "" else "\n") =
        (cosmetic o.condensed "\n").flatten := by
      cases o.condensed <;> rfl
    rw [if_pos rfl, if_pos rfl, List.flatMap_append, flatten_header, ← blanks, List.append_assoc,
      List.append_assoc, List.append_assoc]
    exact congrArg (_ ++ ·) (bytes_rootTag _ _ _)
  | false =>
    rw [if_neg (by simp), if_neg (by simp)]
    exact bytes_rootTag [] "" (parent? ks o)

theorem bytes_shownTokens {ks : KeySet} {o : Options} (complete : (document ks o).refusal = none) :
    (shownTokens ks o).flatMap Token.bytes = (document ks o).bytes := by
  rw [document_eq_of_complete complete, shownTokens]
  have elements : (ks.keys.flatMap fun k =>
        elementTokens (.shown k (documentParent ks o) o) o.condensed k.value k.comment).flatMap
        Token.bytes =
      (ks.keys.flatMap fun k =>
        element (.shown k (documentParent ks o) o) k o.condensed).flatten := by
    induction ks.keys with
    | nil => rfl
    | cons k rest ih =>
      rw [List.flatMap_cons, List.flatMap_append, bytes_elementTokens, ih, List.flatMap_cons,
        List.flatten_append]
  rw [List.flatMap_append, List.flatMap_append, bytes_openingTokens, elements]
  simp only [Rendering.bytes, List.flatten_append, List.append_assoc]
  rfl

end KeyExport.Xml
