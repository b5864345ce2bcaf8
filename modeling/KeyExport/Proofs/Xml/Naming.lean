import KeyExport.Proofs.Path.Ancestry
import KeyExport.Proofs.Rendering
import KeyExport.Proofs.Text.Ascii
import KeyExport.Xml.Document
import Mathlib.Data.List.Basic

/-!
# How elements are identified

Where names are not qualified no key is refused: its element carries its name or, below a parent, what
is left of the name without the parent and the separators that follow. A common parent ends between two
characters of each name, so this rest is text again.
-/

namespace KeyExport.Xml

open Bytes (ofString ofChars)

/-- The identification of a key whose name is not qualified. -/
def Naming.stored (k : Key) (parent : Option Parent) : Naming :=
  match parent.bind fun p => basename? (ofString k.name) (ofString p.name) p.size with
  | some rest => .basename rest
  | none => .name k.name

theorem Naming.ofKey_eq_stored {o : Options} (plain : o.fullName = false) (k : Key)
    (parent : Option Parent) : Naming.ofKey k parent o = .ok (Naming.stored k parent) := by
  unfold Naming.ofKey Naming.stored
  cases parent.bind fun p => basename? (ofString k.name) (ofString p.name) p.size with
  | some rest => rfl
  | none => simp [plain]

/-- What the elements of a document are named relative to. -/
def documentParent (ks : KeySet) (o : Options) : Option Parent :=
  (parent? ks o).map ({ name := · })

theorem key_complete {k : Key} {parent : Option Parent} {o : Options}
    (h : (key k parent o).refusal = none) : ∃ naming, Naming.ofKey k parent o = .ok naming := by
  unfold key at h
  split at h
  · next naming found => exact ⟨naming, found⟩
  · simp [Rendering.refuse] at h

/-- The identification of a key that is not refused: its basename, or its name as the options show it. -/
def Naming.shown (k : Key) (parent : Option Parent) (o : Options) : Naming :=
  match parent.bind fun p => basename? (ofString k.name) (ofString p.name) p.size with
  | some rest => .basename rest
  | none => .name (if o.fullName then k.qualifiedName o.numbers else k.name)

theorem Naming.eq_shown_of_ofKey {k : Key} {parent : Option Parent} {o : Options} {naming : Naming}
    (h : Naming.ofKey k parent o = .ok naming) : naming = .shown k parent o := by
  unfold Naming.ofKey at h
  unfold Naming.shown
  generalize (parent.bind fun p => basename? (ofString k.name) (ofString p.name) p.size) = cut at h ⊢
  cases cut with
  | some rest => exact (Except.ok.inj h).symm
  | none =>
    cases full : o.fullName with
    | true =>
      rw [full] at h
      cases name : k.fullName o.numbers with
      | error e => rw [name] at h; cases h
      | ok shown =>
        rw [name] at h
        rw [← (Key.fullName_eq_ok_iff.mp name).1]
        exact (Except.ok.inj h).symm
    | false =>
      rw [full] at h
      exact (Except.ok.inj h).symm

theorem Naming.basename?_of_ofKey {k : Key} {parent : Option Parent} {o : Options} {rest : Bytes}
    (h : Naming.ofKey k parent o = .ok (.basename rest)) :
    (parent.bind fun p => basename? (ofString k.name) (ofString p.name) p.size) = some rest := by
  have shown := Naming.eq_shown_of_ofKey h
  unfold Naming.shown at shown
  split at shown
  · next found => rw [found, Naming.basename.inj shown]
  · cases shown

theorem Naming.shown_of_plain {o : Options} (plain : o.fullName = false) (k : Key)
    (parent : Option Parent) : Naming.shown k parent o = .stored k parent :=
  (Naming.eq_shown_of_ofKey (Naming.ofKey_eq_stored plain k parent)).symm

theorem key_eq_of_complete {k : Key} {parent : Option Parent} {o : Options}
    (h : (key k parent o).refusal = none) :
    key k parent o = { fragments := element (.shown k parent o) k o.condensed } := by
  obtain ⟨naming, found⟩ := key_complete h
  rw [key, found, Naming.eq_shown_of_ofKey found]

theorem document_eq_of_complete_keys {ks : KeySet} {o : Options}
    (complete : ∀ k ∈ ks.keys, (key k (documentParent ks o) o).refusal = none) :
    document ks o =
      { fragments := opening ks o ++
          (ks.keys.flatMap fun k => element (.shown k (documentParent ks o) o) k o.condensed) ++
          [ofString "</keyset>\n"] } := by
  have all : elements ks o =
      { fragments := ks.keys.flatMap fun k =>
          element (.shown k (documentParent ks o) o) k o.condensed } := by
    show Rendering.concat (ks.keys.map fun k => key k (documentParent ks o) o) = _
    rw [Rendering.concat_map_of_complete complete]
    refine congrArg (Rendering.mk · none) (List.flatMap_congr fun k mem => ?_)
    rw [key_eq_of_complete (complete k mem)]
  rw [document, all]
  rfl

theorem complete_keys {ks : KeySet} {o : Options} (complete : (document ks o).refusal = none) :
    ∀ k ∈ ks.keys, (key k (documentParent ks o) o).refusal = none := by
  have body := (Rendering.complete_of_append (Rendering.complete_of_append complete).1).2
  exact Rendering.complete_of_concat_map body

/-- A document that is not refused shows all its keys. -/
theorem document_eq_of_complete {ks : KeySet} {o : Options}
    (complete : (document ks o).refusal = none) :
    document ks o =
      { fragments := opening ks o ++
          (ks.keys.flatMap fun k => element (.shown k (documentParent ks o) o) k o.condensed) ++
          [ofString "</keyset>\n"] } :=
  document_eq_of_complete_keys (complete_keys complete)

/-- A key whose name is refused leaves nothing behind. -/
theorem key_refused {k : Key} {parent : Option Parent} {o : Options} {e : NameTooLong}
    (h : (key k parent o).refusal = some e) :
    key k parent o = .refuse e ∧ Naming.ofKey k parent o = .error e := by
  unfold key at h ⊢
  split at h
  · simp at h
  · next refused =>
    obtain rfl := Option.some.inj h
    exact ⟨rfl, refused⟩

/-- A document ends in front of the element of the first key that is refused. -/
theorem document_eq_of_refused {ks : KeySet} {o : Options} {before after : List Key} {k : Key}
    {e : NameTooLong} (whole : ks.keys = before ++ k :: after)
    (complete : ∀ b ∈ before, (key b (documentParent ks o) o).refusal = none)
    (refused : (key k (documentParent ks o) o).refusal = some e) :
    document ks o =
      { fragments := opening ks o ++ before.flatMap fun b => (key b (documentParent ks o) o).fragments
        refusal := some e } := by
  have body : elements ks o =
      { fragments := before.flatMap fun b => (key b (documentParent ks o) o).fragments
        refusal := some e } := by
    show Rendering.concat (ks.keys.map fun k => key k (documentParent ks o) o) = _
    rw [whole]
    exact Rendering.concat_map_of_refused complete (key_refused refused).1
  rw [document, body, Rendering.append_of_refusal_eq_none (r := { fragments := opening ks o }) rfl]
  exact Rendering.append_of_refusal_eq_some rfl _

theorem exists_refused_key {ks : KeySet} {o : Options} {e : NameTooLong}
    (h : (document ks o).refusal = some e) :
    ∃ before k after, ks.keys = before ++ k :: after ∧
      (∀ b ∈ before, (key b (documentParent ks o) o).refusal = none) ∧
      (key k (documentParent ks o) o).refusal = some e := by
  rw [document, Rendering.refusal_append rfl] at h
  exact Rendering.exists_refused_of_refusal_concat_map h

theorem document_eq_of_stored {o : Options} (plain : o.fullName = false) (ks : KeySet) :
    document ks o =
      { fragments := opening ks o ++
          (ks.keys.flatMap fun k => element (.stored k (documentParent ks o)) k o.condensed) ++
          [ofString "</keyset>\n"] } := by
  have complete : ∀ k ∈ ks.keys, (key k (documentParent ks o) o).refusal = none := by
    intro k _
    rw [key, Naming.ofKey_eq_stored plain]
  rw [document_eq_of_complete_keys complete]
  simp only [Naming.shown_of_plain plain]

/-- A name without a parent that it begins with, character by character. -/
theorem basename?_append (p r : List Char) :
    basename? (ofChars (p ++ r)) (ofChars p) 0 =
      if r.dropWhile (· == Path.separator) = [] then none
      else some (ofChars (r.dropWhile (· == Path.separator))) := by
  have bytes := Bytes.dropWhile_ofChars (c := Path.separator) (by decide) r
  have slash : asciiByte Path.separator = 0x2F := by decide
  rw [slash] at bytes
  have applies : (ofChars p).length ≤ (ofChars p).length ∧
      (ofChars p).length ≤ (ofChars (p ++ r)).length ∧
      (ofChars (p ++ r)).take (ofChars p).length = (ofChars p).take (ofChars p).length := by
    simp
  rw [basename?, if_pos rfl, if_pos applies, Bytes.ofChars_append, List.drop_left, bytes]
  cases r.dropWhile (· == Path.separator) with
  | nil => rfl
  | cons c cs =>
    have some : ofChars (c :: cs) ≠ [] :=
      List.append_ne_nil_of_left_ne_nil String.utf8EncodeChar_ne_nil _
    rw [if_neg (List.cons_ne_nil c cs)]
    split
    · next none => exact absurd none some
    · rfl

theorem Naming.stored_of_prefix {k : Key} {p : String} {r : List Char}
    (h : k.name.toList = p.toList ++ r) :
    Naming.stored k (some { name := p }) =
      if r.dropWhile (· == Path.separator) = [] then .name k.name
      else .basename (ofChars (r.dropWhile (· == Path.separator))) := by
  have cut := basename?_append p.toList r
  rw [← h] at cut
  show (match basename? (ofString k.name) (ofString p) 0 with
    | some rest => Naming.basename rest
    | none => Naming.name k.name) = _
  rw [show basename? (ofString k.name) (ofString p) 0 = _ from cut]
  by_cases nothing : r.dropWhile (· == Path.separator) = []
  · rw [if_pos nothing, if_pos nothing]
  · rw [if_neg nothing, if_neg nothing]

theorem exists_key_of_parent? {ks : KeySet} {o : Options} {p : String} (h : parent? ks o = some p) :
    ∃ k, k ∈ ks.keys := by
  apply List.exists_mem_of_ne_nil
  intro none
  unfold parent? KeySet.commonParent? KeySet.names at h
  simp [none, Path.common?] at h

/-- The common parent of a document covers the names of all its keys. -/
theorem covers_of_parent? {ks : KeySet} {o : Options} {p : String} (h : parent? ks o = some p) :
    p.toList ≠ [] ∧ ∀ k ∈ ks.keys, Path.covers p.toList k.name.toList = true := by
  unfold parent? at h
  split at h
  · obtain ⟨q, found, rfl⟩ := Option.map_eq_some_iff.mp h
    obtain ⟨some, all⟩ := Path.covers_of_common? found
    rw [String.toList_ofList]
    refine ⟨some, ?_⟩
    intro k mem
    exact all _ (List.mem_map_of_mem (List.mem_map_of_mem mem))
  · simp at h

theorem prefix_of_parent? {ks : KeySet} {o : Options} {p : String} (h : parent? ks o = some p) {k : Key}
    (mem : k ∈ ks.keys) : p.toList <+: k.name.toList :=
  Path.prefix_of_covers ((covers_of_parent? h).2 k mem)

end KeyExport.Xml
