import KeyExport.Proofs.Exports
import KeyExport.Proofs.Text.Base64
import KeyExport.Proofs.Xml.Naming

/-!
# The layout of elements

An element begins with the attribute that names its key. A text of at most sixteen bytes on one line is a
second attribute; any other value and the comment stand inside, the value first, on lines of their own. An
element with nothing inside ends with its tag. Condensed elements lack the lines, and nothing else.
-/

namespace KeyExport.Xml

open Bytes (ofString)

/-- From the start of an element to the end of the attribute that names its key. -/
def Naming.head : Naming → Bytes
  | name s => ofString "<key name=\"" ++ (ofString s ++ ofString "\"")
  | basename rest => ofString "<key basename=\"" ++ (rest ++ ofString "\"")

theorem Naming.flatten_fragments (naming : Naming) : naming.fragments.flatten = naming.head := by
  cases naming <;> simp [fragments, head]

theorem flatten_element (naming : Naming) (k : Key) (condensed : Bool) :
    (element naming k condensed).flatten =
      naming.head ++ (body condensed k.value k.comment).flatten := by
  rw [element, List.flatten_append, Naming.flatten_fragments]

/-- Blanks that a condensed element lacks. -/
def blanks (condensed : Bool) (s : String) : Bytes := if condensed then [] else ofString s

theorem flatten_cosmetic (condensed : Bool) (s : String) :
    (cosmetic condensed s).flatten = blanks condensed s := by
  cases condensed <;> simp [cosmetic, blanks]

theorem blanks_append (condensed : Bool) (s t : String) :
    blanks condensed (s ++ t) = blanks condensed s ++ blanks condensed t := by
  simpa only [flatten_cosmetic] using flatten_cosmetic_append condensed s t

/-- A text that is shown in the tag. -/
def Short (s : String) : Prop := s.utf8ByteSize ≤ 16 ∧ '\n' ∉ s.toList

instance (s : String) : Decidable (Short s) :=
  inferInstanceAs (Decidable (s.utf8ByteSize ≤ 16 ∧ '\n' ∉ s.toList))

/-- What stands in the element of a value. -/
inductive Payload where
  | data (s : String)
  | base64 (b : Bytes)

def Payload.bytes (condensed : Bool) : Payload → Bytes
  | data s => ofString "<![CDATA[" ++ (ofString s ++ ofString "]]>")
  | base64 b => blanks condensed "\n" ++ (Base64.encode b ++ blanks condensed "\n")

/-- The parts of an element behind the attribute that names its key. -/
structure Shape where
  inTag : Option String
  payload : Option Payload
  comment : Option String

namespace Shape

/-- Each part is there just if the value, or the comment, calls for it. -/
structure Shows (x : Shape) (value : Value) (comment : Option String) : Prop where
  inTag : ∀ s, x.inTag = some s ↔ value = .text s ∧ Short s
  data : ∀ s, x.payload = some (.data s) ↔ value = .text s ∧ ¬Short s
  base64 : ∀ b, x.payload = some (.base64 b) ↔ value = .binary b
  comment : x.comment = comment

def of (value : Value) (comment : Option String) : Shape :=
  match value with
  | .absent => ⟨none, none, comment⟩
  | .text s => if Short s then ⟨some s, none, comment⟩ else ⟨none, some (.data s), comment⟩
  | .binary b => ⟨none, some (.base64 b), comment⟩

theorem shows_of (value : Value) (comment : Option String) : (of value comment).Shows value comment := by
  cases value with
  | absent => exact ⟨by simp [of], by simp [of], by simp [of], rfl⟩
  | text s =>
    by_cases short : Short s
    · have shape : of (.text s) comment = ⟨some s, none, comment⟩ := if_pos short
      refine ⟨fun t => ?_, fun t => ?_, by simp [shape], by rw [shape]⟩
      · simp only [shape, Option.some.injEq, Value.text.injEq]
        exact ⟨fun same => ⟨same, same ▸ short⟩, And.left⟩
      · simp only [shape, reduceCtorEq, Value.text.injEq, false_iff]
        rintro ⟨rfl, long⟩
        exact long short
    · have shape : of (.text s) comment = ⟨none, some (.data s), comment⟩ := if_neg short
      refine ⟨fun t => ?_, fun t => ?_, by simp [shape], by rw [shape]⟩
      · simp only [shape, reduceCtorEq, Value.text.injEq, false_iff]
        rintro ⟨rfl, fits⟩
        exact short fits
      · simp only [shape, Option.some.injEq, Payload.data.injEq, Value.text.injEq]
        exact ⟨fun same => ⟨same, same ▸ short⟩, And.left⟩
  | binary b => exact ⟨by simp [of], by simp [of], by simp [of], rfl⟩

/-- The attribute of a value that is shown in the tag. -/
def tagBytes (condensed : Bool) (x : Shape) : Bytes :=
  match x.inTag with
  | some s =>
    ofString (if condensed then " " else "\n\t") ++
      (ofString "value=\"" ++ (ofString s ++ ofString "\""))
  | none => []

def payloadChild (condensed : Bool) (p : Payload) : Bytes :=
  ofString "<value>" ++ (p.bytes condensed ++ ofString "</value>")

def commentChild (c : String) : Bytes :=
  ofString "<comment><![CDATA[" ++ (ofString c ++ ofString "]]></comment>")

/-- The elements inside. -/
def children (condensed : Bool) (x : Shape) : List Bytes :=
  (x.payload.map (payloadChild condensed)).toList ++ (x.comment.map commentChild).toList

/-- Children on lines of their own, and the end of the element. -/
def inside (condensed : Bool) (children : List Bytes) : Bytes :=
  blanks condensed "\n\n" ++
    ((children.flatMap fun child => blanks condensed "     " ++ (child ++ blanks condensed "\n")) ++
      (ofString "</key>" ++ blanks condensed "\n\n"))

/-- All that follows the naming attribute. -/
def bytes (condensed : Bool) (x : Shape) : Bytes :=
  x.tagBytes condensed ++
    if x.children condensed = [] then
      ofString "/>" ++ blanks condensed (if x.inTag = none then "\n\n" else "\n")
    else ofString ">" ++ inside condensed (x.children condensed)

theorem Shows.payload_eq_none_iff {x : Shape} {value : Value} {comment : Option String}
    (h : x.Shows value comment) :
    x.payload = none ↔ value = .absent ∨ ∃ s, value = .text s ∧ Short s := by
  constructor
  · intro missing
    have notData : ∀ s, x.payload ≠ some (.data s) := by simp [missing]
    have notBase64 : ∀ b, x.payload ≠ some (.base64 b) := by simp [missing]
    cases value with
    | absent => exact .inl rfl
    | text s =>
      refine .inr ⟨s, rfl, ?_⟩
      by_contra long
      exact notData s ((h.data s).mpr ⟨rfl, long⟩)
    | binary b => exact absurd ((h.base64 b).mpr rfl) (notBase64 b)
  · intro plain
    cases payload : x.payload with
    | none => rfl
    | some p =>
      cases p with
      | data s =>
        obtain ⟨rfl, long⟩ := (h.data s).mp payload
        simp [long] at plain
      | base64 b =>
        obtain rfl := (h.base64 b).mp payload
        simp at plain

/-- Nothing stands inside just if there is no comment and no value, or one that is shown in the tag. -/
theorem Shows.children_eq_nil_iff {x : Shape} {value : Value} {comment : Option String}
    (h : x.Shows value comment) (condensed : Bool) :
    x.children condensed = [] ↔
      comment = none ∧ (value = .absent ∨ ∃ s, value = .text s ∧ Short s) := by
  rw [← h.payload_eq_none_iff, ← h.comment, and_comm]
  simp [children]

end Shape

/-- A comment alone, below an empty line. -/
theorem flatten_ending_alone (condensed : Bool) (c : String) :
    blanks condensed "\n" ++ (ending condensed (some c)).flatten =
      Shape.inside condensed [Shape.commentChild c] := by
  have gap : blanks condensed "\n\n" = blanks condensed "\n" ++ blanks condensed "\n" :=
    blanks_append condensed "\n" "\n"
  simp [ending, commentElement, Shape.inside, Shape.commentChild, flatten_cosmetic, gap]

/-- The element of a value, and what follows it. -/
theorem flatten_ending_behind (condensed : Bool) (child : Bytes) (comment : Option String) :
    blanks condensed "\n\n     " ++ (child ++ (ending condensed comment).flatten) =
      Shape.inside condensed (child :: (comment.map Shape.commentChild).toList) := by
  have indented : blanks condensed "\n\n     " = blanks condensed "\n\n" ++ blanks condensed "     " :=
    blanks_append condensed "\n\n" "     "
  cases comment <;>
    simp [ending, commentElement, Shape.inside, Shape.commentChild, flatten_cosmetic, indented]

theorem flatten_textElement (condensed : Bool) (s : String) :
    (textElement condensed s).flatten =
      blanks condensed "\n\n     " ++ Shape.payloadChild condensed (.data s) := by
  have start : ofString "<value><![CDATA[" = ofString "<value>" ++ ofString "<![CDATA[" := rfl
  have stop : ofString "]]></value>" = ofString "]]>" ++ ofString "</value>" := rfl
  simp [textElement, Shape.payloadChild, Payload.bytes, flatten_cosmetic, start, stop]

theorem flatten_binaryElement (condensed : Bool) (data : Bytes) :
    (binaryElement condensed data).flatten =
      blanks condensed "\n\n     " ++ Shape.payloadChild condensed (.base64 data) := by
  simp [binaryElement, Shape.payloadChild, Payload.bytes, flatten_cosmetic]

theorem flatten_valueAttribute (condensed : Bool) (s : String) (payload : Option Payload)
    (comment : Option String) :
    (valueAttribute condensed s).flatten = Shape.tagBytes condensed ⟨some s, payload, comment⟩ := by
  simp [valueAttribute, Shape.tagBytes]

theorem flatten_body (condensed : Bool) (value : Value) (comment : Option String) :
    (body condensed value comment).flatten = (Shape.of value comment).bytes condensed := by
  cases value with
  | absent =>
    cases comment with
    | none => simp [body, Shape.of, Shape.bytes, Shape.tagBytes, Shape.children, flatten_cosmetic]
    | some c =>
      have alone := flatten_ending_alone condensed c
      simp [body, Shape.of, Shape.bytes, Shape.tagBytes, Shape.children, flatten_cosmetic, alone]
  | text s =>
    by_cases short : Short s
    · have fits : fitsAttribute s = true := fitsAttribute_iff.mpr short
      have tag := flatten_valueAttribute condensed s none comment
      cases comment with
      | none => simp [body, Shape.of, Shape.bytes, Shape.children, fits, short, flatten_cosmetic, tag]
      | some c =>
        have alone := flatten_ending_alone condensed c
        simp [body, Shape.of, Shape.bytes, Shape.children, fits, short, flatten_cosmetic, tag, alone]
    · have long : fitsAttribute s = false := Bool.eq_false_iff.mpr (mt fitsAttribute_iff.mp short)
      have behind := flatten_ending_behind condensed (Shape.payloadChild condensed (.data s)) comment
      simp [body, Shape.of, Shape.bytes, Shape.tagBytes, Shape.children, long, short,
        flatten_textElement, behind]
  | binary data =>
    have behind := flatten_ending_behind condensed (Shape.payloadChild condensed (.base64 data)) comment
    simp [body, Shape.of, Shape.bytes, Shape.tagBytes, Shape.children, flatten_binaryElement, behind]

/-- A key that is named is written in the layout of elements, to the last byte. Base64 has no blanks of
its own and comes in groups of four. -/
theorem element_layout {k : Key} {parent : Option Parent} {o : Options} {naming : Naming}
    (named : Naming.ofKey k parent o = .ok naming) :
    (∃ x : Shape, x.Shows k.value k.comment ∧
        (x.children o.condensed = [] ↔
          k.comment = none ∧ (k.value = .absent ∨ ∃ s, k.value = .text s ∧ Short s)) ∧
        (Export.key k parent o).inMemory = naming.head ++ x.bytes o.condensed) ∧
      (Export.key k parent o).resultInMemory = .ok (Export.key k parent o).inMemory.length ∧
      ∀ data, k.value = .binary data →
        (Base64.encode data).length = 4 * ((data.length + 2) / 3) ∧
          ∀ x ∈ Base64.encode data, x ∈ Base64.alphabet ∨ x = Base64.pad := by
  have rendered : (Export.key k parent o).rendering = { fragments := element naming k o.condensed } := by
    rw [Export.rendering, key, named]
  refine ⟨⟨.of k.value k.comment, Shape.shows_of _ _, ?_, ?_⟩, ?_, ?_⟩
  · exact (Shape.shows_of _ _).children_eq_nil_iff o.condensed
  · rw [Export.inMemory_eq, rendered, Rendering.bytes, flatten_element, flatten_body]
  · rw [Export.resultInMemory_eq, Export.inMemory_eq, rendered]
    rfl
  · intro data _
    exact ⟨Base64.length_encode data, fun x mem => Base64.mem_encode mem⟩

/-- Sixteen characters, but one byte too many for the tag, and a comment that is empty yet there. -/
theorem layout_of_seventeen_bytes :
    let k : Key := { name := "user:/a/é", value := .text "0123456789abcdeé", comment := some "" }
    let parent : Option Parent := some { name := "user:/a" }
    let o : Options := {}
    let naming : Naming := .basename (ofString "é")
    (Naming.ofKey k parent o = .ok naming ∧
        (Export.key k parent o).inMemory =
          ofString ("<key basename=\"é\">\n\n     <value><![CDATA[0123456789abcdeé]]></value>\n" ++
            "     <comment><![CDATA[]]></comment>\n</key>\n\n")) ∧
      (∃ x : Shape, x.Shows k.value k.comment ∧
          (x.children o.condensed = [] ↔
            k.comment = none ∧ (k.value = .absent ∨ ∃ s, k.value = .text s ∧ Short s)) ∧
          (Export.key k parent o).inMemory = naming.head ++ x.bytes o.condensed) ∧
        (Export.key k parent o).resultInMemory = .ok (Export.key k parent o).inMemory.length ∧
        ∀ data, k.value = .binary data →
          (Base64.encode data).length = 4 * ((data.length + 2) / 3) ∧
            ∀ x ∈ Base64.encode data, x ∈ Base64.alphabet ∨ x = Base64.pad := by
  intro k parent o naming
  have named : Naming.ofKey k parent o = .ok naming := by decide +kernel
  refine ⟨⟨named, ?_⟩, element_layout named⟩
  rw [Export.inMemory_eq]
  decide +kernel

end KeyExport.Xml
