import KeyExport.Proofs.Xml.Layout
import Mathlib.Data.List.Forall2

/-!
# Condensing

Condensed output says the same with fewer blanks. What is not blank is kept byte by byte, except the
comment that counts the keys of a document, and names are refused as ever.
-/

namespace KeyExport

open Bytes (ofString)

/-- Spaces, tabs and line feeds. -/
def isSpacing (x : UInt8) : Bool := x == 0x20 || x == 0x09 || x == 0x0A

/-- The bytes without all spacing. -/
def ink (b : Bytes) : Bytes := b.filter fun x => !isSpacing x

/-- The same but for spacing, and no longer. -/
structure Tightens (a b : Bytes) : Prop where
  ink_eq : ink a = ink b
  length_le : a.length ≤ b.length

/-- The same but for spacing, of which there is less. -/
structure Shortens (a b : Bytes) : Prop extends Tightens a b where
  length_lt : a.length < b.length

theorem Tightens.refl (a : Bytes) : Tightens a a := ⟨rfl, Nat.le_refl _⟩

theorem Tightens.append {a b c d : Bytes} (first : Tightens a b) (last : Tightens c d) :
    Tightens (a ++ c) (b ++ d) := by
  refine ⟨?_, ?_⟩
  · calc
      ink (a ++ c) = ink a ++ ink c := List.filter_append _ _
      _ = ink b ++ ink d := by rw [first.ink_eq, last.ink_eq]
      _ = ink (b ++ d) := (List.filter_append _ _).symm
  · rw [List.length_append, List.length_append]
    exact Nat.add_le_add first.length_le last.length_le

/-- Whatever comes before, the whole gets shorter with its end. -/
theorem Tightens.append_shortens {a b c d : Bytes} (first : Tightens a b) (last : Shortens c d) :
    Shortens (a ++ c) (b ++ d) := by
  refine ⟨first.append last.toTightens, ?_⟩
  rw [List.length_append, List.length_append]
  exact Nat.add_lt_add_of_le_of_lt first.length_le last.length_lt

theorem Tightens.flatMap {α β : Type} {related : α → β → Prop} {f : α → Bytes} {g : β → Bytes}
    {as : List α} {bs : List β} (pairs : List.Forall₂ related as bs)
    (each : ∀ {a b}, related a b → Tightens (f a) (g b)) :
    Tightens (as.flatMap f) (bs.flatMap g) := by
  induction pairs with
  | nil => exact Tightens.refl []
  | cons first _ ih =>
    rw [List.flatMap_cons, List.flatMap_cons]
    exact (each first).append ih

namespace Rendering

/-- Refused alike, and tighter until then. -/
structure Tighter (r s : Rendering) : Prop where
  refusal : r.refusal = s.refusal
  bytes : Tightens r.bytes s.bytes

theorem Tighter.refl (r : Rendering) : Tighter r r := ⟨rfl, .refl _⟩

theorem Tighter.append {r s t u : Rendering} (first : Tighter r s) (last : Tighter t u) :
    Tighter (r ++ t) (s ++ u) := by
  cases refusal : s.refusal with
  | some e =>
    rw [append_of_refusal_eq_some (first.refusal.trans refusal), append_of_refusal_eq_some refusal]
    exact first
  | none =>
    rw [append_of_refusal_eq_none (first.refusal.trans refusal), append_of_refusal_eq_none refusal]
    refine ⟨last.refusal, ?_⟩
    rw [Rendering.bytes, Rendering.bytes, List.flatten_append, List.flatten_append]
    exact first.bytes.append last.bytes

theorem tighter_concat_map {α : Type} {f g : α → Rendering} {as : List α}
    (each : ∀ a ∈ as, Tighter (f a) (g a)) : Tighter (concat (as.map f)) (concat (as.map g)) := by
  induction as with
  | nil => exact Tighter.refl {}
  | cons a as ih =>
    rw [List.forall_mem_cons] at each
    exact each.1.append (ih each.2)

theorem error_iff_of_refusal_eq {r s : Rendering} (same : r.refusal = s.refusal) (x : ExportError) :
    r.outcome = .error x ↔ s.outcome = .error x := by
  rw [outcome, outcome, same]
  cases s.refusal <;> simp

end Rendering

namespace Xml

theorem tightens_blanks {s : String} (blank : ink (ofString s) = []) :
    Tightens (blanks true s) (blanks false s) :=
  ⟨blank.symm, Nat.zero_le _⟩

theorem shortens_blanks {s : String} (blank : ink (ofString s) = []) (some : ofString s ≠ []) :
    Shortens (blanks true s) (blanks false s) :=
  ⟨tightens_blanks blank, List.length_pos_iff.mpr some⟩

theorem tightens_line : Tightens (blanks true "\n") (blanks false "\n") := tightens_blanks (by decide)

/-- What stands between two attributes. -/
theorem tightens_separator : Tightens (ofString " ") (ofString "\n\t") := ⟨by decide, by decide⟩

namespace Shape

theorem tightens_tagBytes (x : Shape) : Tightens (x.tagBytes true) (x.tagBytes false) := by
  unfold tagBytes
  cases x.inTag with
  | none => exact .refl []
  | some s => exact tightens_separator.append (.refl _)

theorem tightens_payloadChild (p : Payload) :
    Tightens (payloadChild true p) (payloadChild false p) := by
  cases p with
  | data s => exact .refl _
  | base64 b =>
    have lines := tightens_line.append ((Tightens.refl (Base64.encode b)).append tightens_line)
    exact (Tightens.refl _).append (lines.append (.refl _))

theorem forall₂_children (x : Shape) :
    List.Forall₂ Tightens (x.children true) (x.children false) := by
  unfold children
  cases x.payload <;> cases x.comment <;> simp [tightens_payloadChild, Tightens.refl]

theorem shortens_inside {as bs : List Bytes} (pairs : List.Forall₂ Tightens as bs) :
    Shortens (inside true as) (inside false bs) := by
  have gap : Tightens (blanks true "\n\n") (blanks false "\n\n") := tightens_blanks (by decide)
  have indent : Tightens (blanks true "     ") (blanks false "     ") := tightens_blanks (by decide)
  have lines := Tightens.flatMap pairs fun child => indent.append (child.append tightens_line)
  have stop : Shortens (blanks true "\n\n") (blanks false "\n\n") :=
    shortens_blanks (by decide) (by decide)
  exact gap.append_shortens (lines.append_shortens ((Tightens.refl _).append_shortens stop))

theorem shortens_bytes (x : Shape) : Shortens (x.bytes true) (x.bytes false) := by
  unfold bytes
  apply (tightens_tagBytes x).append_shortens
  -- Both have the same children, so they end in the same way.
  have pairs := forall₂_children x
  generalize x.children true = as at pairs ⊢
  generalize x.children false = bs at pairs ⊢
  cases pairs with
  | nil =>
    rw [if_pos rfl, if_pos rfl]
    apply (Tightens.refl _).append_shortens
    split
    · exact shortens_blanks (by decide) (by decide)
    · exact shortens_blanks (by decide) (by decide)
  | cons first others =>
    rw [if_neg (List.cons_ne_nil _ _), if_neg (List.cons_ne_nil _ _)]
    exact (Tightens.refl _).append_shortens (shortens_inside (.cons first others))

end Shape

theorem shortens_element (naming : Naming) (k : Key) :
    Shortens (element naming k true).flatten (element naming k false).flatten := by
  rw [flatten_element, flatten_element, flatten_body, flatten_body]
  exact (Tightens.refl _).append_shortens (Shape.shortens_bytes _)

variable {k : Key} {parent : Option Parent} {o : Options}

theorem key_condensed_of_ok {naming : Naming} (named : Naming.ofKey k parent o = .ok naming)
    (condensed : Bool) :
    key k parent { o with condensed } = { fragments := element naming k condensed } := by
  have same : Naming.ofKey k parent { o with condensed } = .ok naming := named
  rw [key, same]

theorem key_condensed_of_error {e : NameTooLong} (refused : Naming.ofKey k parent o = .error e)
    (condensed : Bool) : key k parent { o with condensed } = .refuse e := by
  have same : Naming.ofKey k parent { o with condensed } = .error e := refused
  rw [key, same]

theorem tighter_key (k : Key) (parent : Option Parent) (o : Options) :
    (key k parent { o with condensed := true }).Tighter
      (key k parent { o with condensed := false }) := by
  cases named : Naming.ofKey k parent o with
  | ok naming =>
    rw [key_condensed_of_ok named, key_condensed_of_ok named]
    exact ⟨rfl, (shortens_element naming k).toTightens⟩
  | error e =>
    rw [key_condensed_of_error named, key_condensed_of_error named]
    exact .refl _

theorem length_key_lt (complete : (key k parent { o with condensed := true }).refusal = none) :
    (key k parent { o with condensed := true }).bytes.length <
      (key k parent { o with condensed := false }).bytes.length := by
  cases named : Naming.ofKey k parent o with
  | ok naming =>
    rw [key_condensed_of_ok named, key_condensed_of_ok named]
    exact (shortens_element naming k).length_lt
  | error e =>
    rw [key_condensed_of_error named] at complete
    cases complete

/-- What every document with a header begins with. -/
def declaration : Bytes := ofString "<?xml version=\"1.0\" encoding=\"UTF-8\"?>"

/-- The comment that a condensed document lacks. -/
def countComment (count : Nat) : Bytes :=
  ofString ("<!-- Generated by keystream. Total of " ++ Text.numeral count ++ " keys. -->")

/-- The start of the root with its schema. -/
def schemaTag (condensed : Bool) : Bytes :=
  let separator := ofString (if condensed then " " else "\n\t")
  ofString ("<keyset xmlns=\"" ++ keysetNamespace ++ "\"") ++ (separator ++
    (ofString ("xmlns:xsi=\"" ++ xsiNamespace ++ "\"") ++ (separator ++
      (ofString ("xsi:schemaLocation=\"" ++ schemaLocation ++ "\"") ++ blanks condensed "\n"))))

theorem flatten_header_tight (count : Nat) :
    (header true count).flatten = declaration ++ schemaTag true := by
  simp [header, schemaTag, declaration, cosmetic, blanks]

theorem flatten_header_loose (count : Nat) :
    (header false count).flatten =
      declaration ++ (ofString "\n" ++ (countComment count ++ (ofString "\n" ++ schemaTag false))) := by
  have start : ofString "\n<!-- Generated by keystream. Total of " =
      ofString "\n" ++ ofString "<!-- Generated by keystream. Total of " := rfl
  have stop : ofString " keys. -->\n" = ofString " keys. -->" ++ ofString "\n" := rfl
  simp [header, schemaTag, declaration, countComment, cosmetic, blanks, Bytes.ofNat, start, stop]

theorem tightens_schemaTag : Tightens (schemaTag true) (schemaTag false) := by
  apply (Tightens.refl _).append
  apply tightens_separator.append
  apply (Tightens.refl _).append
  apply tightens_separator.append
  exact (Tightens.refl _).append tightens_line

/-- A header keeps its lines apart where the comment is left out. -/
theorem tightens_header (count : Nat) :
    Tightens (header true count).flatten
      (declaration ++ (ofString "\n" ++ (ofString "\n" ++ schemaTag false))) := by
  rw [flatten_header_tight]
  apply (Tightens.refl _).append
  exact tightens_line.append (tightens_line.append tightens_schemaTag)

/-- The end of the root's start tag. -/
def rootEnd (parent : Option String) : List Bytes :=
  match parent with
  | some p => [ofString "        parent=\"", ofString p, ofString "\">\n"]
  | none => [ofString ">\n"]

theorem opening_eq (ks : KeySet) (o : Options) (condensed : Bool) :
    opening ks { o with condensed } =
      (if o.emitsXmlHeader then header condensed ks.size else [ofString "<keyset"]) ++
        rootEnd (parent? ks o) := rfl

/-- All that follows the opening. -/
def behind (ks : KeySet) (o : Options) : Rendering :=
  elements ks o ++ { fragments := [ofString "</keyset>\n"] }

theorem document_eq_opening_behind (ks : KeySet) (o : Options) :
    document ks o =
      { fragments := opening ks o ++ (behind ks o).fragments, refusal := (behind ks o).refusal } := by
  rw [document, Rendering.append_assoc]
  exact Rendering.append_of_refusal_eq_none rfl _

theorem bytes_document (ks : KeySet) (o : Options) :
    (document ks o).bytes = (opening ks o).flatten ++ (behind ks o).bytes := by
  rw [document_eq_opening_behind]
  exact List.flatten_append

theorem tighter_behind (ks : KeySet) (o : Options) :
    (behind ks { o with condensed := true }).Tighter (behind ks { o with condensed := false }) := by
  have keys : (elements ks { o with condensed := true }).Tighter
      (elements ks { o with condensed := false }) :=
    Rendering.tighter_concat_map fun k _ => tighter_key k (documentParent ks o) o
  exact keys.append (.refl _)

theorem tightens_document_of_header (ks : KeySet) (shown : o.emitsXmlHeader = true) :
    ∃ rest, (document ks { o with condensed := false }).bytes =
        declaration ++ (ofString "\n" ++ (countComment ks.size ++ rest)) ∧
      Tightens (document ks { o with condensed := true }).bytes
        (declaration ++ (ofString "\n" ++ rest)) := by
  refine ⟨ofString "\n" ++ (schemaTag false ++ ((rootEnd (parent? ks o)).flatten ++
    (behind ks { o with condensed := false }).bytes)), ?_, ?_⟩
  · rw [bytes_document, opening_eq, if_pos shown, List.flatten_append, flatten_header_loose]
    simp only [List.append_assoc]
  · have start := (tightens_header ks.size).append (.refl (rootEnd (parent? ks o)).flatten)
    have whole := start.append (tighter_behind ks o).bytes
    rw [bytes_document, opening_eq, if_pos shown, List.flatten_append]
    simpa only [List.append_assoc] using whole

theorem tightens_document_of_no_header (ks : KeySet) (bare : o.emitsXmlHeader = false) :
    Tightens (document ks { o with condensed := true }).bytes
      (document ks { o with condensed := false }).bytes := by
  have same : opening ks { o with condensed := true } = opening ks { o with condensed := false } := by
    rw [opening_eq, opening_eq, bare]
    rfl
  rw [bytes_document, bytes_document, same]
  exact (Tightens.refl _).append (tighter_behind ks o).bytes

theorem refusal_document (ks : KeySet) (o : Options) :
    (document ks { o with condensed := true }).refusal =
      (document ks { o with condensed := false }).refusal := by
  rw [document_eq_opening_behind, document_eq_opening_behind]
  exact (tighter_behind ks o).refusal

theorem length_document_le (ks : KeySet) (o : Options) :
    (document ks { o with condensed := true }).bytes.length ≤
      (document ks { o with condensed := false }).bytes.length := by
  cases header : o.emitsXmlHeader with
  | true =>
    obtain ⟨rest, loose, tightened⟩ := tightens_document_of_header ks header
    rw [loose]
    apply Nat.le_trans tightened.length_le
    simp only [List.length_append]
    omega
  | false => exact (tightens_document_of_no_header ks header).length_le

/-- Condensed or not, the same names are refused, and the same is written but for spacing and for the
comment behind the declaration. The element of a key gets shorter, and no document gets longer. -/
theorem condensing_is_cosmetic (o : Options) :
    let tight : Options := { o with condensed := true }
    let loose : Options := { o with condensed := false }
    (∀ (k : Key) (parent : Option Parent),
      (∀ x, (Export.key k parent tight).resultInMemory = .error x ↔
        (Export.key k parent loose).resultInMemory = .error x) ∧
      ink (Export.key k parent tight).inMemory = ink (Export.key k parent loose).inMemory ∧
      ∀ n, (Export.key k parent tight).resultInMemory = .ok n →
        (Export.key k parent tight).inMemory.length < (Export.key k parent loose).inMemory.length) ∧
    ∀ ks : KeySet,
      (∀ x, (Export.document ks tight).resultInMemory = .error x ↔
        (Export.document ks loose).resultInMemory = .error x) ∧
      (o.emitsXmlHeader = true → ∃ rest,
        (Export.document ks loose).inMemory =
          declaration ++ (ofString "\n" ++ (countComment ks.size ++ rest)) ∧
        ink (Export.document ks tight).inMemory = ink (declaration ++ (ofString "\n" ++ rest))) ∧
      (o.emitsXmlHeader = false →
        ink (Export.document ks tight).inMemory = ink (Export.document ks loose).inMemory) ∧
      (Export.document ks tight).inMemory.length ≤ (Export.document ks loose).inMemory.length := by
  intro tight loose
  simp only [Export.resultInMemory_eq, Export.inMemory_eq]
  refine ⟨?_, ?_⟩
  · intro k parent
    have tighter := tighter_key k parent o
    refine ⟨Rendering.error_iff_of_refusal_eq tighter.refusal, tighter.bytes.ink_eq, ?_⟩
    intro n ok
    exact length_key_lt (Rendering.outcome_eq_ok_iff.mp ok).1
  · intro ks
    refine ⟨?_, ?_, ?_, length_document_le ks o⟩
    · exact Rendering.error_iff_of_refusal_eq (refusal_document ks o)
    · intro header
      obtain ⟨rest, whole, tightened⟩ := tightens_document_of_header ks header
      exact ⟨rest, whole, tightened.ink_eq⟩
    · intro bare
      exact (tightens_document_of_no_header ks bare).ink_eq

end Xml

end KeyExport
