import KeyExport.Proofs.Path.WellFormed
import KeyExport.Proofs.Sink.Accepting
import KeyExport.Proofs.Xml.Legibility
import KeyExport.Proofs.Xml.Marks
import Mathlib.Data.List.Forall2

/-!
# What a document tells

A scan of a document gives its marks, and they determine the parent and what each element says. A
well-formed name is determined by the parent and what is left of the name below it. So two sets of keys
whose documents are the same, in whichever layouts, hold the same names, values and comments.
-/

namespace KeyExport.Xml

open Bytes (ofString ofChars)
open Markup

/-- The keys of a document can be told from it. -/
structure Recoverable (ks : KeySet) (o : Options) : Prop where
  plain : o.fullName = false
  unescaped : ∀ k ∈ ks.keys, Unescaped k
  wellFormed : o.hierarchical = true → ∀ k ∈ ks.keys, Path.WellFormed k.name.toList

theorem documentMarks_eq_of_bytes {ks ls : KeySet} {o p : Options} (hk : Recoverable ks o)
    (hl : Recoverable ls p) (same : (document ks o).bytes = (document ls p).bytes) :
    documentMarks ks o = documentMarks ls p := by
  have first := scan_document hk.plain hk.unescaped
  have second := scan_document hl.plain hl.unescaped
  rw [same, second] at first
  rw [← marks_documentTokens, ← marks_documentTokens, Option.some.inj first]

/-- The parent itself keeps its name; what lies below it is told by the rest of its name. -/
theorem Naming.stored_below {p : String} {k : Key} (upper : Path.WellFormed p.toList)
    (lower : Path.WellFormed k.name.toList) (covered : Path.covers p.toList k.name.toList = true) :
    (k.name = p ∧ Naming.stored k (some { name := p }) = .name p) ∨
      ∃ rest, k.name.toList = Path.below p.toList rest ∧
        Naming.stored k (some { name := p }) = .basename (ofChars rest) := by
  rcases upper.eq_below lower covered with same | ⟨rest, whole, some, head⟩
  · left
    have name := String.toList_injective same
    refine ⟨name, ?_⟩
    have cut := Naming.stored_of_prefix (k := k) (p := p) (r := []) (by simp [same])
    rw [cut]
    simp [name]
  · right
    refine ⟨rest, whole, ?_⟩
    obtain ⟨c, cs, rfl⟩ := List.exists_cons_of_ne_nil some
    have other : (c == Path.separator) = false := by simpa using head
    have keeps : (c :: cs).dropWhile (· == Path.separator) = c :: cs :=
      List.dropWhile_cons_of_neg (by simp [other])
    unfold Path.below at whole
    split at whole
    · rw [Naming.stored_of_prefix whole, keeps]
      rfl
    · have drops : (Path.separator :: c :: cs).dropWhile (· == Path.separator) = c :: cs := by
        rw [List.dropWhile_cons_of_pos (by simp), keeps]
      rw [Naming.stored_of_prefix whole, drops]
      rfl

theorem name_eq_of_stored_below {p : String} {k l : Key} (upper : Path.WellFormed p.toList)
    (hk : Path.WellFormed k.name.toList) (hl : Path.WellFormed l.name.toList)
    (ck : Path.covers p.toList k.name.toList = true)
    (cl : Path.covers p.toList l.name.toList = true)
    (same : Naming.stored k (some { name := p }) = Naming.stored l (some { name := p })) :
    k.name = l.name := by
  rcases Naming.stored_below upper hk ck with ⟨name, stored⟩ | ⟨rest, whole, stored⟩
  · rcases Naming.stored_below upper hl cl with ⟨name', stored'⟩ | ⟨rest', whole', stored'⟩
    · exact name.trans name'.symm
    · rw [stored, stored'] at same
      cases same
  · rcases Naming.stored_below upper hl cl with ⟨name', stored'⟩ | ⟨rest', whole', stored'⟩
    · rw [stored, stored'] at same
      cases same
    · rw [stored, stored'] at same
      have rests := Bytes.ofChars_injective (Naming.basename.inj same)
      apply String.toList_injective
      rw [whole, whole', rests]

theorem hierarchical_of_parent? {ks : KeySet} {o : Options} {p : String} (h : parent? ks o = some p) :
    o.hierarchical = true := by
  unfold parent? at h
  split at h
  · assumption
  · simp at h

theorem Recoverable.wellFormed_parent {ks : KeySet} {o : Options} (h : Recoverable ks o) {p : String}
    (found : parent? ks o = some p) : Path.WellFormed p.toList := by
  have below := h.wellFormed (hierarchical_of_parent? found)
  unfold parent? at found
  rw [if_pos (hierarchical_of_parent? found)] at found
  obtain ⟨q, common, rfl⟩ := Option.map_eq_some_iff.mp found
  rw [String.toList_ofList]
  apply Path.WellFormed.of_common? common
  intro n mem
  obtain ⟨name, named, rfl⟩ := List.mem_map.mp mem
  obtain ⟨k, key, rfl⟩ := List.mem_map.mp named
  exact below k key

/-- Below the same parent, or where there is none, names are told by the identifications. -/
theorem name_eq_of_stored {ks ls : KeySet} {o p : Options} (hk : Recoverable ks o)
    (hl : Recoverable ls p) (parent : parent? ks o = parent? ls p) {k l : Key} (mk : k ∈ ks.keys)
    (ml : l ∈ ls.keys)
    (same : Naming.stored k (documentParent ks o) = Naming.stored l (documentParent ls p)) :
    k.name = l.name := by
  unfold documentParent at same
  rw [← parent] at same
  cases found : parent? ks o with
  | none =>
    rw [found] at same
    exact Naming.name.inj same
  | some q =>
    have also : parent? ls p = some q := parent ▸ found
    rw [found] at same
    refine name_eq_of_stored_below (hk.wellFormed_parent found) ?_ ?_ ?_ ?_ same
    · exact hk.wellFormed (hierarchical_of_parent? found) k mk
    · exact hl.wellFormed (hierarchical_of_parent? also) l ml
    · exact (covers_of_parent? found).2 k mk
    · exact (covers_of_parent? also).2 l ml

/-- Documents that are the same byte by byte hold the same keys, whatever the layouts. -/
theorem keys_agree_of_same_document {ks ls : KeySet} {o p : Options} (hk : Recoverable ks o)
    (hl : Recoverable ls p)
    (same : ((document ks o).writeTo ({} : Memory)).2.contents =
      ((document ls p).writeTo ({} : Memory)).2.contents) :
    ks.size = ls.size ∧
      List.Forall₂ (fun k l => k.name = l.name ∧ k.value = l.value ∧ k.comment = l.comment)
        ks.keys ls.keys := by
  rw [(Memory.writeTo_eq _ _).2, (Memory.writeTo_eq _ _).2] at same
  have marks := documentMarks_eq_of_bytes hk hl (List.append_cancel_left same)
  obtain ⟨parent, agree⟩ := documentMarks_inj marks
  obtain ⟨size, agree⟩ := List.forall₂_iff_zip.mp agree
  refine ⟨size, List.forall₂_iff_zip.mpr ⟨size, ?_⟩⟩
  intro k l pair
  obtain ⟨mk, ml⟩ := List.of_mem_zip pair
  obtain ⟨stored, value, comment⟩ := agree pair
  exact ⟨name_eq_of_stored hk hl parent mk ml stored, value, comment⟩

/-- Two sets that differ in owners only, each with its own switches, and all kinds of values. -/
theorem keys_agree_below_root :
    let bare : List Key := [
      { name := "system:/x", value := .binary [] },
      { name := "system:/x/a", value := .text "]]\n<key/>", comment := some "" },
      { name := "system:/x/b/c", value := .text "" }]
    let ks : KeySet := ⟨bare, by decide⟩
    let ls : KeySet := ⟨bare.map fun k => { k with owner := some "o", needsSync := true }, by decide⟩
    let o : Options := { hierarchical := true, header := true, suppressXmlHeaders := true }
    let p : Options := { hierarchical := true, showMeta := true }
    (Recoverable ks o ∧ Recoverable ls p ∧ ((document ks o).writeTo ({} : Memory)).2.contents =
        ((document ls p).writeTo ({} : Memory)).2.contents) ∧
      ks.size = ls.size ∧
        List.Forall₂ (fun k l => k.name = l.name ∧ k.value = l.value ∧ k.comment = l.comment)
          ks.keys ls.keys := by
  intro bare ks ls o p
  have unescaped : ∀ k ∈ bare, Unescaped k ∧ Path.WellFormed k.name.toList := by
    intro k mem
    simp only [bare, List.mem_cons, List.not_mem_nil, or_false] at mem
    rcases mem with rfl | rfl | rfl
    · refine ⟨⟨by decide, by simp, by simp, by simp⟩, by decide, ?_, by decide⟩
      simp [List.infix_cons_iff, Path.separator]
    · refine ⟨⟨by decide, ?_, ?_, ?_⟩, by decide, ?_, by decide⟩
      · rintro s ⟨⟩ fits
        exact absurd fits (by decide)
      · rintro s ⟨⟩ -
        simp [List.infix_cons_iff]
      · rintro c ⟨⟩
        simp
      · simp [List.infix_cons_iff, Path.separator]
    · refine ⟨⟨by decide, ?_, ?_, by simp⟩, by decide, ?_, by decide⟩
      · rintro s ⟨⟩ -
        decide
      · rintro s ⟨⟩ long
        exact absurd (by decide) long
      · simp [List.infix_cons_iff, Path.separator]
  have first : Recoverable ks o :=
    ⟨rfl, fun k mem => (unescaped k mem).1, fun _ k mem => (unescaped k mem).2⟩
  have second : Recoverable ls p := by
    refine ⟨rfl, ?_, ?_⟩
    · intro l mem
      obtain ⟨k, key, rfl⟩ := List.mem_map.mp mem
      obtain ⟨name, short, long, comment⟩ := (unescaped k key).1
      exact ⟨name, short, long, comment⟩
    · intro _ l mem
      obtain ⟨k, key, rfl⟩ := List.mem_map.mp mem
      exact (unescaped k key).2
  have same : ((document ks o).writeTo ({} : Memory)).2.contents =
      ((document ls p).writeTo ({} : Memory)).2.contents := by
    rw [(Memory.writeTo_eq _ _).2, (Memory.writeTo_eq _ _).2]
    rfl
  exact ⟨⟨first, second, same⟩, keys_agree_of_same_document first second same⟩

end KeyExport.Xml
