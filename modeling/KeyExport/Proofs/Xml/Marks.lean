import KeyExport.Proofs.Text.Base64
import KeyExport.Proofs.Xml.Markup

/-!
# Documents without their layout

Declarations, comments and blanks say nothing about the keys. What remains of a document are marks, the
same for all layouts, and the marks of an element tell where it ends and what it says.
-/

namespace KeyExport.Xml

open Bytes (ofString)
open Markup

/-- What stands between tags: character data, or text without its blanks. -/
inductive Content where
  | data (b : Bytes)
  | text (b : Bytes)
deriving DecidableEq

inductive Mark where
  | opened (name : Bytes) (attributes : List (Bytes × Bytes)) (closed : Bool)
  | ended (name : Bytes)
  | content (c : Content)
deriving DecidableEq

/-- Text that may be empty. -/
def solid? (b : Bytes) : Option Content := if b = [] then none else some (.text b)

def mark? : Token → Option Mark
  | .declaration _ => none
  | .comment _ => none
  | .data b => some (.content (.data b))
  | .startTag name attributes _ closed =>
    some (.opened name (attributes.map fun a => (a.name, a.value)) closed)
  | .endTag name => some (.ended name)
  | .text b => (solid? (b.filter (!isBlank ·))).map .content

def marks (ts : List Token) : List Mark := ts.filterMap mark?

theorem marks_append (ts us : List Token) : marks (ts ++ us) = marks ts ++ marks us :=
  List.filterMap_append

theorem marks_cons {t : Token} {m : Mark} (h : mark? t = some m) (ts : List Token) :
    marks (t :: ts) = m :: marks ts :=
  List.filterMap_cons_some h

theorem marks_cons_of_none {t : Token} (h : mark? t = none) (ts : List Token) :
    marks (t :: ts) = marks ts :=
  List.filterMap_cons_none h

theorem mark?_blank {b : Bytes} (blank : Blank b) :
    mark? (.text b) = none := by
  have nothing : b.filter (!isBlank ·) = [] := by
    apply List.filter_eq_nil_iff.mpr
    intro x mem
    simp [blank x mem]
  rw [mark?, nothing]
  rfl

theorem marks_text (b : Bytes) :
    marks [.text b] = (solid? (b.filter (!isBlank ·))).toList.map .content := by
  unfold marks
  cases content : solid? (b.filter (!isBlank ·)) <;> simp [mark?, content]

theorem marks_gap (condensed : Bool) {s : String} (blank : Blank (ofString s)) :
    marks (gap condensed s) = [] := by
  cases condensed with
  | true => rfl
  | false => exact marks_cons_of_none (mark?_blank blank) []

/-! ## Elements -/

/-- A child element, if there is one, and what stands in it. -/
def child (name : Bytes) : Option (Option Content) → List Mark
  | none => []
  | some inside => .opened name [] false :: (inside.toList.map .content ++ [.ended name])

def valueAttributes : Value → List (Bytes × Bytes)
  | .text s => if fitsAttribute s then [(ofString "value", ofString s)] else []
  | _ => []

def valueContent? : Value → Option (Option Content)
  | .absent => none
  | .text s => if fitsAttribute s then none else some (some (.data (ofString s)))
  | .binary data => some (solid? (Base64.encode data))

def Naming.attribute (naming : Naming) : Bytes × Bytes :=
  (naming.identifier.name, naming.identifier.value)

def childMarks (value : Value) (comment : Option String) : List Mark :=
  child (ofString "value") (valueContent? value) ++
    child (ofString "comment") (comment.map fun c => some (.data (ofString c)))

/-- An element without children is closed by its tag. -/
def elementMarks (naming : Naming) (value : Value) (comment : Option String) : List Mark :=
  let children := childMarks value comment
  .opened (ofString "key") (naming.attribute :: valueAttributes value) children.isEmpty ::
    if children.isEmpty then [] else children ++ [.ended (ofString "key")]

theorem mark?_keyTag (attributes : List Attribute) (closed : Bool) :
    mark? (keyTag attributes closed) =
      some (.opened (ofString "key") (attributes.map fun a => (a.name, a.value)) closed) := rfl

theorem mark?_childTag (name : String) :
    mark? (childTag name) = some (.opened (ofString name) [] false) := rfl

theorem mark?_endTag (name : String) : mark? (endTag name) = some (.ended (ofString name)) := rfl

theorem mark?_data (b : Bytes) : mark? (.data b) = some (.content (.data b)) := rfl

theorem marks_endingTokens (condensed : Bool) {before : String}
    (blank : Blank (ofString before)) (comment : Option String) :
    marks (endingTokens condensed before comment) =
      child (ofString "comment") (comment.map fun c => some (.data (ofString c))) ++
        [.ended (ofString "key")] := by
  have line : ∀ s : String, Blank (ofString s) → Blank (ofString (before ++ s)) := by
    intro s also x mem
    rw [Bytes.ofString_append, List.mem_append] at mem
    rcases mem with first | second
    · exact blank x first
    · exact also x second
  cases comment with
  | none =>
    rw [endingTokens, marks_append, marks_gap condensed (line _ (by decide)),
      marks_cons (mark?_endTag _), marks_gap condensed (by decide)]
    rfl
  | some c =>
    rw [endingTokens, marks_append, marks_append, marks_gap condensed (line _ (by decide)),
      marks_cons (mark?_childTag _), marks_cons (mark?_data _), marks_cons (mark?_endTag _),
      marks_gap condensed (by decide), marks_cons (mark?_endTag _), marks_gap condensed (by decide)]
    rfl

theorem marks_textTokens (condensed : Bool) (s : String) :
    marks (textTokens condensed s) =
      child (ofString "value") (some (some (.data (ofString s)))) := by
  rw [textTokens, marks_append, marks_gap condensed (by decide), marks_cons (mark?_childTag _),
    marks_cons (mark?_data _), marks_cons (mark?_endTag _)]
  rfl

/-- Base64 has no blanks, so all of it remains. -/
theorem filter_encode (data : Bytes) :
    (Base64.encode data).filter (!isBlank ·) = Base64.encode data := by
  apply List.filter_eq_self.mpr
  intro x mem
  rcases Base64.mem_encode mem with letter | rfl
  · have solid : Base64.alphabet.all (!isBlank ·) = true := by decide
    exact List.all_eq_true.mp solid x letter
  · decide

theorem marks_payload (condensed : Bool) (data : Bytes) :
    marks (payload condensed (Base64.encode data)) =
      (solid? (Base64.encode data)).toList.map .content := by
  cases condensed with
  | true =>
    by_cases empty : Base64.encode data = []
    · rw [payload, if_pos rfl, if_pos empty, empty]
      rfl
    · rw [payload, if_pos rfl, if_neg empty, marks_text, filter_encode]
  | false =>
    have solid : (ofString "\n" ++ (Base64.encode data ++ ofString "\n")).filter (!isBlank ·) =
        Base64.encode data := by
      rw [List.filter_append, List.filter_append, filter_encode]
      exact List.append_nil _
    rw [payload, if_neg (by simp), marks_text, solid]

theorem marks_binaryTokens (condensed : Bool) (data : Bytes) :
    marks (binaryTokens condensed data) =
      child (ofString "value") (valueContent? (.binary data)) := by
  rw [binaryTokens, marks_append, marks_append, marks_gap condensed (by decide),
    marks_cons (mark?_childTag _), marks_payload, marks_cons (mark?_endTag _)]
  rfl

theorem marks_elementTokens (naming : Naming) (condensed : Bool) (value : Value)
    (comment : Option String) :
    marks (elementTokens naming condensed value comment) = elementMarks naming value comment := by
  unfold elementTokens elementMarks childMarks
  cases value with
  | absent =>
    cases comment with
    | none => rw [marks_cons (mark?_keyTag _ _), marks_gap condensed (by decide)]; rfl
    | some c => rw [marks_cons (mark?_keyTag _ _), marks_endingTokens condensed (by decide)]; rfl
  | text s =>
    dsimp only [valueContent?, valueAttributes]
    split
    · cases comment with
      | none => rw [marks_cons (mark?_keyTag _ _), marks_gap condensed (by decide)]; rfl
      | some c => rw [marks_cons (mark?_keyTag _ _), marks_endingTokens condensed (by decide)]; rfl
    · rw [List.cons_append, marks_cons (mark?_keyTag _ _), marks_append, marks_textTokens,
        marks_endingTokens condensed (by decide), ← List.append_assoc]
      rfl
  | binary data =>
    dsimp only
    rw [List.cons_append, marks_cons (mark?_keyTag _ _), marks_append, marks_binaryTokens,
      marks_endingTokens condensed (by decide), ← List.append_assoc]
    rfl

theorem identifiers_differ : ofString "name" ≠ ofString "basename" := by decide

theorem Naming.attribute_injective {n m : Naming} (same : n.attribute = m.attribute) : n = m := by
  obtain ⟨label, value⟩ := Prod.mk.inj same
  cases n with
  | name s =>
    cases m with
    | name t => rw [Bytes.ofString_injective value]
    | basename rest => exact absurd label identifiers_differ
  | basename rest =>
    cases m with
    | name t => exact absurd label.symm identifiers_differ
    | basename other => rw [show rest = other from value]

theorem text_parts (s : String) :
    (valueAttributes (.text s) = [(ofString "value", ofString s)] ∧
        valueContent? (.text s) = none) ∨
      (valueAttributes (.text s) = [] ∧
        valueContent? (.text s) = some (some (.data (ofString s)))) := by
  by_cases fits : fitsAttribute s
  · exact .inl ⟨if_pos fits, if_pos fits⟩
  · exact .inr ⟨if_neg fits, if_neg fits⟩

theorem solid?_injective {a b : Bytes} (same : solid? a = solid? b) : a = b := by
  unfold solid? at same
  split at same
  · next first =>
    split at same
    · next second => rw [first, second]
    · cases same
  · split at same
    · cases same
    · exact Content.text.inj (Option.some.inj same)

theorem solid?_ne_data (b data : Bytes) : solid? b ≠ some (.data data) := by
  unfold solid?
  split <;> simp

/-- A value is told by its attribute and by what stands in its element. -/
theorem value_eq_of_parts {v w : Value} (attributes : valueAttributes v = valueAttributes w)
    (content : valueContent? v = valueContent? w) : v = w := by
  cases v with
  | absent =>
    cases w with
    | absent => rfl
    | text t =>
      rcases text_parts t with ⟨shown, -⟩ | ⟨-, inside⟩
      · rw [shown] at attributes
        cases attributes
      · rw [inside] at content
        cases content
    | binary data => cases content
  | text s =>
    cases w with
    | absent =>
      rcases text_parts s with ⟨shown, -⟩ | ⟨-, inside⟩
      · rw [shown] at attributes
        cases attributes
      · rw [inside] at content
        cases content
    | text t =>
      rcases text_parts s with ⟨shown, -⟩ | ⟨shown, inside⟩
      · rcases text_parts t with ⟨shown', -⟩ | ⟨shown', -⟩
        · rw [shown, shown'] at attributes
          rw [Bytes.ofString_injective (Prod.mk.inj (List.cons.inj attributes).1).2]
        · rw [shown, shown'] at attributes
          cases attributes
      · rcases text_parts t with ⟨shown', -⟩ | ⟨-, inside'⟩
        · rw [shown, shown'] at attributes
          cases attributes
        · rw [inside, inside'] at content
          have data := Content.data.inj (Option.some.inj (Option.some.inj content))
          rw [Bytes.ofString_injective data]
    | binary data =>
      rcases text_parts s with ⟨-, inside⟩ | ⟨-, inside⟩
      · rw [inside] at content
        cases content
      · rw [inside] at content
        exact absurd (Option.some.inj content).symm (solid?_ne_data _ _)
  | binary data =>
    cases w with
    | absent => cases content
    | text t =>
      rcases text_parts t with ⟨-, inside⟩ | ⟨-, inside⟩
      · rw [inside] at content
        cases content
      · rw [inside] at content
        exact absurd (Option.some.inj content) (solid?_ne_data _ _)
    | binary other => rw [Base64.encode_injective (solid?_injective (Option.some.inj content))]

/-- A child element ends where its end tag says so, and it is there when its start tag is. -/
theorem child_append_cancel {name : Bytes} {i j : Option (Option Content)} {x y : List Mark}
    (hx : x.head? ≠ some (.opened name [] false)) (hy : y.head? ≠ some (.opened name [] false))
    (same : child name i ++ x = child name j ++ y) : i = j ∧ x = y := by
  cases i with
  | none =>
    cases j with
    | none => exact ⟨rfl, same⟩
    | some inside =>
      have first : x = child name (some inside) ++ y := same
      exact absurd (by rw [first]; rfl) hx
  | some inside =>
    cases j with
    | none =>
      have first : child name (some inside) ++ x = y := same
      exact absurd (by rw [← first]; rfl) hy
    | some other =>
      have rest := (List.cons.inj same).2
      rw [List.append_eq, List.append_eq, List.append_assoc, List.append_assoc] at rest
      cases inside with
      | none =>
        cases other with
        | none => exact ⟨rfl, (List.cons.inj rest).2⟩
        | some c => cases (List.cons.inj rest).1
      | some c =>
        cases other with
        | none => cases (List.cons.inj rest).1
        | some d =>
          obtain ⟨content, ends⟩ := List.cons.inj rest
          cases content
          exact ⟨rfl, (List.cons.inj ends).2⟩

theorem head?_comment {comment : Option String} {x : List Mark}
    (h : x.head? ≠ some (.opened (ofString "value") [] false)) :
    (child (ofString "comment") (comment.map fun c => some (.data (ofString c))) ++ x).head? ≠
      some (.opened (ofString "value") [] false) := by
  cases comment with
  | none => exact h
  | some c =>
    intro head
    have name := (Mark.opened.inj (Option.some.inj head)).1
    exact absurd name (by decide)

theorem childMarks_append_cancel {v w : Value} {c d : Option String} {x y : List Mark}
    (same : childMarks v c ++ .ended (ofString "key") :: x =
      childMarks w d ++ .ended (ofString "key") :: y) :
    valueContent? v = valueContent? w ∧ c = d ∧ x = y := by
  rw [childMarks, childMarks, List.append_assoc, List.append_assoc] at same
  obtain ⟨content, same⟩ :=
    child_append_cancel (head?_comment (by simp)) (head?_comment (by simp)) same
  obtain ⟨comment, same⟩ := child_append_cancel (by simp) (by simp) same
  refine ⟨content, ?_, (List.cons.inj same).2⟩
  refine Option.map_injective ?_ comment
  intro s t same
  exact Bytes.ofString_injective (Content.data.inj (Option.some.inj same))

theorem childMarks_eq_nil {v : Value} {c : Option String} (h : childMarks v c = []) :
    valueContent? v = none ∧ c = none := by
  obtain ⟨value, comment⟩ := List.append_eq_nil_iff.mp h
  constructor
  · cases content : valueContent? v with
    | none => rfl
    | some inside => simp [content, child] at value
  · cases c with
    | none => rfl
    | some s => simp [child] at comment

/-- The marks of an element tell where it ends and what it says. -/
theorem elementMarks_append_cancel {n m : Naming} {v w : Value} {c d : Option String}
    {x y : List Mark} (same : elementMarks n v c ++ x = elementMarks m w d ++ y) :
    (n = m ∧ v = w ∧ c = d) ∧ x = y := by
  unfold elementMarks at same
  rw [List.cons_append, List.cons_append] at same
  obtain ⟨tag, rest⟩ := List.cons.inj same
  obtain ⟨-, attributes, closed⟩ := Mark.opened.inj tag
  obtain ⟨naming, attributes⟩ := List.cons.inj attributes
  have naming := Naming.attribute_injective naming
  by_cases none : childMarks v c = []
  · have also : childMarks w d = [] := by simpa [none] using closed.symm
    obtain ⟨content, comment⟩ := childMarks_eq_nil none
    obtain ⟨content', comment'⟩ := childMarks_eq_nil also
    have value := value_eq_of_parts attributes (content.trans content'.symm)
    refine ⟨⟨naming, value, comment.trans comment'.symm⟩, ?_⟩
    simpa [none, also] using rest
  · have also : childMarks w d ≠ [] := by
      intro nil
      rw [nil] at closed
      exact none (List.isEmpty_iff.mp closed)
    rw [if_neg (by simpa using none), if_neg (by simpa using also), List.append_assoc,
      List.append_assoc] at rest
    obtain ⟨content, comment, rest⟩ := childMarks_append_cancel rest
    exact ⟨⟨naming, value_eq_of_parts attributes content, comment⟩, rest⟩

/-! ## Documents -/

def schemaAttributes : List (Bytes × Bytes) :=
  [(ofString "xmlns", ofString keysetNamespace), (ofString "xmlns:xsi", ofString xsiNamespace),
    (ofString "xsi:schemaLocation", ofString schemaLocation)]

def rootAttributes (schema : Bool) (parent : Option String) : List (Bytes × Bytes) :=
  (if schema then schemaAttributes else []) ++
    parent.toList.map fun p => (ofString "parent", ofString p)

def elementsMarks (ks : KeySet) (o : Options) : List Mark :=
  ks.keys.flatMap fun k => elementMarks (.stored k (documentParent ks o)) k.value k.comment

def documentMarks (ks : KeySet) (o : Options) : List Mark :=
  .opened (ofString "keyset") (rootAttributes o.emitsXmlHeader (parent? ks o)) false ::
    (elementsMarks ks o ++ [.ended (ofString "keyset")])

theorem marks_prologTokens (condensed : Bool) (count : Nat) :
    marks (prologTokens condensed count) = [] := by
  cases condensed with
  | true => rfl
  | false =>
    rw [prologTokens, marks_cons_of_none rfl, if_neg (by simp),
      marks_cons_of_none (mark?_blank (by decide)), marks_cons_of_none rfl,
      marks_cons_of_none (mark?_blank (by decide))]
    rfl

theorem mark?_rootTag (emits : Bool) {schema : List Attribute}
    (h : (schema.map fun a => (a.name, a.value)) = if emits then schemaAttributes else [])
    (blanks : String) (parent : Option String) :
    mark? (rootTag schema blanks parent) =
      some (.opened (ofString "keyset") (rootAttributes emits parent) false) := by
  cases parent with
  | none => simp only [rootTag, mark?, rootAttributes, h, Option.toList_none, List.map_nil,
      List.append_nil]
  | some p =>
    simp only [rootTag, mark?, rootAttributes, List.map_append, h, Option.toList_some, List.map_cons,
      List.map_nil, named]

theorem marks_openingTokens (ks : KeySet) (o : Options) :
    marks (openingTokens ks o) =
      [.opened (ofString "keyset") (rootAttributes o.emitsXmlHeader (parent? ks o)) false] := by
  have line : mark? (.text (ofString "\n")) = none := mark?_blank (by decide)
  have schema : ∀ condensed, ((schemaTokens condensed).map fun a => (a.name, a.value)) =
      schemaAttributes := fun _ => rfl
  unfold openingTokens
  cases o.emitsXmlHeader with
  | true =>
    rw [if_pos rfl, marks_append, marks_prologTokens,
      marks_cons (mark?_rootTag true (schema _) _ _), marks_cons_of_none line]
    rfl
  | false =>
    rw [if_neg (by simp), marks_cons (mark?_rootTag false rfl _ _),
      marks_cons_of_none line]
    rfl

theorem marks_documentTokens (ks : KeySet) (o : Options) :
    marks (documentTokens ks o) = documentMarks ks o := by
  have elements : marks (elementsTokens ks o) = elementsMarks ks o := by
    unfold elementsTokens elementsMarks
    induction ks.keys with
    | nil => rfl
    | cons k rest ih =>
      rw [List.flatMap_cons, marks_append, marks_elementTokens, ih, List.flatMap_cons]
  rw [documentTokens, marks_append, marks_append, marks_openingTokens, elements,
    marks_cons (mark?_endTag _), marks_cons_of_none (mark?_blank (by decide))]
  rfl

theorem rootAttributes_inj {schema schema' : Bool} {p q : Option String}
    (same : rootAttributes schema p = rootAttributes schema' q) : schema = schema' ∧ p = q := by
  have parent : ∀ {p q : Option String},
      (p.toList.map fun p => (ofString "parent", ofString p)) =
        (q.toList.map fun q => (ofString "parent", ofString q)) → p = q := by
    intro p q same
    cases p <;> cases q <;> simp at same ⊢
    exact Bytes.ofString_injective same
  have lengths := congrArg List.length same
  cases schema <;> cases schema'
  · exact ⟨rfl, parent same⟩
  · cases p <;> cases q <;> simp [rootAttributes, schemaAttributes] at lengths
  · cases p <;> cases q <;> simp [rootAttributes, schemaAttributes] at lengths
  · exact ⟨rfl, parent (List.append_cancel_left same)⟩

/-- Elements up to the end of the root are told apart one by one. -/
theorem flatMap_elementMarks_inj {α β : Type} {as : List α} {bs : List β}
    {n : α → Naming} {v : α → Value} {c : α → Option String}
    {n' : β → Naming} {v' : β → Value} {c' : β → Option String} {last : Bytes}
    (same : (as.flatMap fun a => elementMarks (n a) (v a) (c a)) ++ [.ended last] =
      (bs.flatMap fun b => elementMarks (n' b) (v' b) (c' b)) ++ [.ended last]) :
    List.Forall₂ (fun a b => n a = n' b ∧ v a = v' b ∧ c a = c' b) as bs := by
  induction as generalizing bs with
  | nil =>
    cases bs with
    | nil => exact .nil
    | cons b bs => simp [elementMarks] at same
  | cons a as ih =>
    cases bs with
    | nil => simp [elementMarks] at same
    | cons b bs =>
      rw [List.flatMap_cons, List.flatMap_cons, List.append_assoc, List.append_assoc] at same
      obtain ⟨agree, rest⟩ := elementMarks_append_cancel same
      exact .cons agree (ih rest)

/-- The marks of a document determine its parent and what its elements say. -/
theorem documentMarks_inj {ks ls : KeySet} {o p : Options}
    (same : documentMarks ks o = documentMarks ls p) :
    parent? ks o = parent? ls p ∧
      List.Forall₂ (fun k l => Naming.stored k (documentParent ks o) =
        Naming.stored l (documentParent ls p) ∧ k.value = l.value ∧ k.comment = l.comment)
        ks.keys ls.keys := by
  obtain ⟨root, rest⟩ := List.cons.inj same
  exact ⟨(rootAttributes_inj (Mark.opened.inj root).2.1).2, flatMap_elementMarks_inj rest⟩

end KeyExport.Xml
