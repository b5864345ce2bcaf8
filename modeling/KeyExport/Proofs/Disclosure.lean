import KeyExport.Dump.Listing
import KeyExport.Proofs.Sink.Accepting
import KeyExport.Proofs.Xml.Naming
import Mathlib.Data.List.Forall2
import Mathlib.Data.List.TakeWhile

/-!
# What exports disclose

Exports show names, values and comments of keys. The owner of a key and its user id can only be seen in
a document with full names, and below a common parent only for the keys that have no basename there.
Listings show, besides, whether a key has to be stored. All else about two sets of keys may differ, and
their exports do not.
-/

namespace KeyExport

open Bytes (ofString)

/-- Keys that are not told apart by what is meant to be shown of them. -/
structure Key.Alike (k l : Key) : Prop where
  name : k.name = l.name
  value : k.value = l.value
  comment : k.comment = l.comment

/-- The keys are alike, position by position. -/
def KeySet.Alike (ks ls : KeySet) : Prop := List.Forall₂ Key.Alike ks.keys ls.keys

theorem KeySet.Alike.size {ks ls : KeySet} (alike : ks.Alike ls) : ks.size = ls.size :=
  List.Forall₂.length_eq alike

theorem KeySet.Alike.names {ks ls : KeySet} (alike : ks.Alike ls) : ks.names = ls.names := by
  rw [KeySet.names, KeySet.names, ← List.forall₂_eq_eq_eq, List.forall₂_map_left_iff,
    List.forall₂_map_right_iff]
  exact List.Forall₂.imp (fun _ _ same => same.name) alike

theorem flatMap_eq_of_forall₂ {α β : Type} {related : α → α → Prop} {f g : α → List β}
    {as bs : List α} (pairs : List.Forall₂ related as bs)
    (same : ∀ {a b}, related a b → f a = g b) : as.flatMap f = bs.flatMap g := by
  induction pairs with
  | nil => rfl
  | cons first _ ih => rw [List.flatMap_cons, List.flatMap_cons, same first, ih]

namespace Options

/-- The options that decide how a document is laid out. -/
structure SameLayout (o p : Options) : Prop where
  condensed : o.condensed = p.condensed
  hierarchical : o.hierarchical = p.hierarchical
  header : o.header = p.header
  suppressXmlHeaders : o.suppressXmlHeaders = p.suppressXmlHeaders

/-- The options that decide what a listing shows. -/
structure SameListing (o p : Options) : Prop where
  header : o.header = p.header
  showIndices : o.showIndices = p.showIndices
  showFlags : o.showFlags = p.showFlags
  showMeta : o.showMeta = p.showMeta
  keyValue : o.keyValue = p.keyValue
  keyMeta : o.keyMeta = p.keyMeta

theorem SameLayout.emitsXmlHeader {o p : Options} (layout : o.SameLayout p) :
    o.emitsXmlHeader = p.emitsXmlHeader := by
  rw [Options.emitsXmlHeader, Options.emitsXmlHeader, layout.header, layout.suppressXmlHeaders]

end Options

/-! ## Documents -/

namespace Xml

section Alike

variable {ks ls : KeySet} {o p : Options} (alike : ks.Alike ls) (layout : o.SameLayout p)

include alike layout

theorem parent?_eq_of_alike : parent? ks o = parent? ls p := by
  rw [parent?, parent?, layout.hierarchical, KeySet.commonParent?, KeySet.commonParent?, alike.names]

theorem documentParent_eq_of_alike : documentParent ks o = documentParent ls p := by
  rw [documentParent, documentParent, parent?_eq_of_alike alike layout]

theorem opening_eq_of_alike : opening ks o = opening ls p := by
  rw [opening, opening, layout.emitsXmlHeader, layout.condensed, alike.size,
    parent?_eq_of_alike alike layout]

end Alike

theorem element_eq_of_alike {k l : Key} (alike : k.Alike l) (naming : Naming) (condensed : Bool) :
    element naming k condensed = element naming l condensed := by
  rw [element, element, alike.value, alike.comment]

theorem stored_eq_of_alike {k l : Key} (alike : k.Alike l) (parent : Option Parent) :
    Naming.stored k parent = Naming.stored l parent := by
  rw [Naming.stored, Naming.stored, alike.name]

theorem document_eq_of_alike {ks ls : KeySet} {o p : Options} (alike : ks.Alike ls)
    (layout : o.SameLayout p) (ho : o.fullName = false) (hp : p.fullName = false) :
    document ks o = document ls p := by
  rw [document_eq_of_stored ho, document_eq_of_stored hp, opening_eq_of_alike alike layout,
    documentParent_eq_of_alike alike layout, layout.condensed]
  rw [flatMap_eq_of_forall₂ alike fun {k l} same => ?_]
  rw [stored_eq_of_alike same, element_eq_of_alike same]

/-- The parent itself, or the parent with separators behind it. -/
def IsParentName (q name : String) : Prop :=
  ∃ n, name.toList = q.toList ++ List.replicate n Path.separator

/-- Two elements that show the names `s` and `t` and are the same otherwise. -/
def DifferInName (s t : String) (first second : Bytes) : Prop :=
  ∃ rest, first = ofString "<key name=\"" ++ (ofString s ++ (ofString "\"" ++ rest)) ∧
    second = ofString "<key name=\"" ++ (ofString t ++ (ofString "\"" ++ rest))

theorem isParentName_of_basename?_eq_none {q name : String} (front : q.toList <+: name.toList)
    (h : basename? (ofString name) (ofString q) 0 = none) : IsParentName q name := by
  obtain ⟨r, whole⟩ := front
  have cut := basename?_append q.toList r
  rw [whole] at cut
  have nothing : r.dropWhile (· == Path.separator) = [] := by
    by_contra some
    rw [if_neg some] at cut
    exact Option.some_ne_none _ (cut.symm.trans h)
  refine ⟨r.length, ?_⟩
  rw [← whole, List.append_cancel_left_eq]
  rw [List.dropWhile_eq_nil_iff] at nothing
  exact List.eq_replicate_of_mem fun c mem => by simpa using nothing c mem

theorem bytes_key_of_alike {k l : Key} (alike : k.Alike l) {q : String}
    (front : q.toList <+: k.name.toList) {o p : Options} (layout : o.SameLayout p)
    (ho : o.fullName = true) (hp : p.fullName = true)
    (hk : (key k (some { name := q }) o).refusal = none)
    (hl : (key l (some { name := q }) p).refusal = none) :
    (key k (some { name := q }) o).bytes = (key l (some { name := q }) p).bytes ∨
      IsParentName q k.name ∧
        DifferInName (k.qualifiedName o.numbers) (l.qualifiedName p.numbers)
          (key k (some { name := q }) o).bytes (key l (some { name := q }) p).bytes := by
  rw [key_eq_of_complete hk, key_eq_of_complete hl, Rendering.bytes, Rendering.bytes,
    ← element_eq_of_alike alike, ← layout.condensed]
  cases cut : basename? (ofString k.name) (ofString q) 0 with
  | some rest =>
    left
    have first : Naming.shown k (some { name := q }) o = .basename rest := by
      simp [Naming.shown, cut]
    have second : Naming.shown l (some { name := q }) p = .basename rest := by
      simp [Naming.shown, ← alike.name, cut]
    rw [first, second]
  | none =>
    right
    have first : Naming.shown k (some { name := q }) o = .name (k.qualifiedName o.numbers) := by
      simp [Naming.shown, cut, ho]
    have second : Naming.shown l (some { name := q }) p = .name (l.qualifiedName p.numbers) := by
      simp [Naming.shown, ← alike.name, cut, hp]
    rw [first, second]
    exact ⟨isParentName_of_basename?_eq_none front cut, _, rfl, rfl⟩

theorem bytes_document_of_complete {ks : KeySet} {o : Options}
    (complete : (document ks o).refusal = none) :
    (document ks o).bytes = (opening ks o).flatten ++
      (ks.keys.flatMap fun k => (key k (documentParent ks o) o).bytes) ++ ofString "</keyset>\n" := by
  have elements :
      (ks.keys.flatMap fun k => element (.shown k (documentParent ks o) o) k o.condensed).flatten =
        ks.keys.flatMap fun k => (key k (documentParent ks o) o).bytes := by
    rw [Rendering.flatten_flatMap]
    refine List.flatMap_congr fun k mem => ?_
    rw [key_eq_of_complete (complete_keys complete k mem)]
    rfl
  rw [document_eq_of_complete complete, Rendering.bytes, List.flatten_append, List.flatten_append,
    elements]
  rfl

/-- Complete documents of two sets below the parent `q` that show full names, apart in some of these. -/
structure NamesApart (ks ls : KeySet) (o p : Options) (q : String) : Prop where
  first : ((document ks o).writeTo ({} : Memory)).2.contents = (opening ks o).flatten ++
    (ks.keys.flatMap fun k => (key k (documentParent ks o) o).bytes) ++ ofString "</keyset>\n"
  second : ((document ls p).writeTo ({} : Memory)).2.contents = (opening ks o).flatten ++
    (ls.keys.flatMap fun l => (key l (documentParent ls p) p).bytes) ++ ofString "</keyset>\n"
  elements : List.Forall₂
    (fun k l =>
      (key k (documentParent ks o) o).bytes = (key l (documentParent ls p) p).bytes ∨
        IsParentName q k.name ∧
          DifferInName (k.qualifiedName o.numbers) (l.qualifiedName p.numbers)
            (key k (documentParent ks o) o).bytes (key l (documentParent ls p) p).bytes)
    ks.keys ls.keys

theorem namesApart_of_alike {ks ls : KeySet} {o p : Options} {q : String} (alike : ks.Alike ls)
    (layout : o.SameLayout p) (ho : o.fullName = true) (hp : p.fullName = true)
    (below : parent? ks o = some q) (hk : ∃ n, ((document ks o).writeTo ({} : Memory)).1 = .ok n)
    (hl : ∃ n, ((document ls p).writeTo ({} : Memory)).1 = .ok n) : NamesApart ks ls o p q := by
  rw [Memory.writeTo_ok_iff] at hk hl
  have first := complete_keys hk
  have second := complete_keys hl
  have parent : documentParent ks o = some { name := q } := by rw [documentParent, below]; rfl
  have same := documentParent_eq_of_alike alike layout
  refine ⟨?_, ?_, ?_⟩
  · rw [(Memory.writeTo_eq _ _).2, bytes_document_of_complete hk]
    rfl
  · rw [(Memory.writeTo_eq _ _).2, bytes_document_of_complete hl, opening_eq_of_alike alike layout]
    rfl
  · rw [← same, parent] at second ⊢
    rw [parent] at first
    obtain ⟨length, pairs⟩ := List.forall₂_iff_zip.mp alike
    refine List.forall₂_iff_zip.mpr ⟨length, ?_⟩
    intro k l pair
    obtain ⟨mk, ml⟩ := List.of_mem_zip pair
    have front := prefix_of_parent? below mk
    exact bytes_key_of_alike (pairs pair) front layout ho hp (first k mk) (second l ml)

end Xml

/-! ## Listings -/

namespace Dump

theorem line_eq_of_alike {k l : Key} (alike : k.Alike l) (sync : k.needsSync = l.needsSync)
    {o p : Options} (listing : o.SameListing p) : line k o = line l p := by
  have sizes : k.nameSize = l.nameSize ∧ k.valueSize = l.valueSize ∧ k.commentSize = l.commentSize := by
    rw [Key.nameSize, Key.nameSize, Key.valueSize, Key.valueSize, Key.commentSize, Key.commentSize,
      alike.name, alike.value, alike.comment]
    exact ⟨rfl, rfl, rfl⟩
  have name : nameField k = nameField l := by rw [nameField, nameField, sizes.1, alike.name]
  have value : valueField k = valueField l := by rw [valueField, valueField, sizes.2.1, alike.value]
  have comment : commentField k = commentField l := by
    rw [commentField, commentField, sizes.2.2, alike.comment]
  have codes : codes k = codes l := by
    rw [Dump.codes, Dump.codes, Key.isBinary, Key.isBinary, Key.isText, Key.isText, alike.value, sync]
  rw [line, line, name, value, comment, codes, listing.keyValue, listing.keyMeta, listing.showMeta,
    listing.showFlags]

theorem lines_eq_of_alike {ks ls : List Key} (alike : List.Forall₂ Key.Alike ks ls)
    (sync : List.Forall₂ (fun k l => k.needsSync = l.needsSync) ks ls) {o p : Options}
    (listing : o.SameListing p) (i : Nat) : lines o i ks = lines p i ls := by
  induction alike generalizing i with
  | nil => rfl
  | cons first _ ih =>
    cases sync with
    | cons stored others =>
      rw [lines, lines, indexed, indexed, listing.showIndices, line_eq_of_alike first stored listing,
        ih others]

theorem keySet_eq_of_alike {ks ls : KeySet} (alike : ks.Alike ls)
    (sync : List.Forall₂ (fun k l => k.needsSync = l.needsSync) ks.keys ls.keys) {o p : Options}
    (listing : o.SameListing p) : keySet ks o = keySet ls p := by
  rw [keySet, keySet, Dump.listing, Dump.listing, listing.header, alike.size,
    lines_eq_of_alike alike sync listing]

end Dump

/-- Two sets with the same names, values and comments are not told apart: by documents without full
names not at all; by documents with full names only in the names of keys that are their parent; by
listings only through the keys that have to be stored. -/
theorem exports_show_contents_only {ks ls : KeySet} (alike : ks.Alike ls) :
    (∀ o p : Options, o.SameLayout p → o.fullName = false → p.fullName = false →
      ∀ {σ : Type} [Sink σ] (s : σ),
        (Xml.document ks o).writeTo s = (Xml.document ls p).writeTo s) ∧
    (∀ (o p : Options) (q : String), o.SameLayout p → o.fullName = true → p.fullName = true →
      o.hierarchical = true → ks.commonParent? = some q →
      (∃ n, ((Xml.document ks o).writeTo ({} : Memory)).1 = .ok n) →
      (∃ n, ((Xml.document ls p).writeTo ({} : Memory)).1 = .ok n) → Xml.NamesApart ks ls o p q) ∧
    ∀ o p : Options, o.SameListing p →
      List.Forall₂ (fun k l => k.needsSync = l.needsSync) ks.keys ls.keys →
      ∀ {σ : Type} [Sink σ] (s : σ),
        (Dump.keySet ks o).writeTo s = (Dump.keySet ls p).writeTo s ∧
          ∀ e, ((Dump.keySet ks o).writeTo s).1 ≠ .error (.nameTooLong e) := by
  refine ⟨?_, ?_, ?_⟩
  · intro o p layout ho hp σ _ s
    rw [Xml.document_eq_of_alike alike layout ho hp]
  · intro o p q layout ho hp hierarchical below hk hl
    refine Xml.namesApart_of_alike alike layout ho hp ?_ hk hl
    rw [Xml.parent?, if_pos hierarchical, below]
  · intro o p listing sync σ _ s
    rw [Dump.keySet_eq_of_alike alike sync listing]
    exact ⟨rfl, Rendering.writeTo_ne_tooLong rfl s⟩

/-- Other owners show where full names are asked for, in the element of the parent; nowhere else. -/
theorem owner_shown_for_parent :
    let ks : KeySet := ⟨[
      { name := "user:/sw", owner := some "alice" },
      { name := "user:/sw/b", value := .text "1", owner := some "alice" }], by decide⟩
    let ls : KeySet := ⟨[
      { name := "user:/sw", owner := some "bob", uid := 7 },
      { name := "user:/sw/b", value := .text "1" }], by decide⟩
    let o : Options := { hierarchical := true, fullName := true }
    let p : Options := { hierarchical := true, fullName := true, numbers := true }
    let q : Options := { hierarchical := true, numbers := true }
    (ks.Alike ls ∧ ((Xml.document ks o).writeTo ({} : Memory)).2.contents ≠
        ((Xml.document ls p).writeTo ({} : Memory)).2.contents) ∧
      Xml.NamesApart ks ls o p "user:/sw" ∧
      (Xml.document ks q).writeTo ({} : Memory) = (Xml.document ls q).writeTo ({} : Memory) ∧
      (Dump.keySet ks .debugDump).writeTo ({} : Memory) =
        (Dump.keySet ls .debugDump).writeTo ({} : Memory) := by
  intro ks ls o p q
  have alike : ks.Alike ls := .cons ⟨rfl, rfl, rfl⟩ (.cons ⟨rfl, rfl, rfl⟩ .nil)
  have differ : ((Xml.document ks o).writeTo ({} : Memory)).2.contents ≠
      ((Xml.document ls p).writeTo ({} : Memory)).2.contents := by
    rw [(Memory.writeTo_eq _ _).2, (Memory.writeTo_eq _ _).2]
    decide +kernel
  obtain ⟨documents, names, listings⟩ := exports_show_contents_only alike
  refine ⟨⟨alike, differ⟩, ?_, ?_, ?_⟩
  · exact names o p "user:/sw" ⟨rfl, rfl, rfl, rfl⟩ rfl rfl rfl (by decide +kernel)
      (Memory.writeTo_ok_iff.mpr (by decide +kernel)) (Memory.writeTo_ok_iff.mpr (by decide +kernel))
  · exact documents q q ⟨rfl, rfl, rfl, rfl⟩ rfl rfl ({} : Memory)
  · have stored : List.Forall₂ (fun k l : Key => k.needsSync = l.needsSync) ks.keys ls.keys :=
      .cons rfl (.cons rfl .nil)
    exact (listings .debugDump .debugDump ⟨rfl, rfl, rfl, rfl, rfl, rfl⟩ stored ({} : Memory)).1

end KeyExport
