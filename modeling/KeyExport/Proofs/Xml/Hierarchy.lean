import KeyExport.Proofs.CommonParent
import KeyExport.Proofs.Disclosure
import KeyExport.Proofs.Xml.Identification

/-!
# The hierarchical layout

A document in the hierarchical layout cuts names only where a segment ends. Its common parent covers all
names; what an element shows is the rest of the name behind the parent and the separators that follow, and
where nothing is left the element is the one that the key has on its own.
-/

namespace KeyExport.Xml

open Bytes (ofString ofChars)

/-- The name is `p`, a run of separators, and `rest`. Where `p` does not end in a separator the run is not
empty, so `rest` begins with a segment. -/
structure Continues (p name rest : String) : Prop where
  nonempty : rest ≠ ""
  head : rest.toList.head? ≠ some Path.separator
  run : ∃ n, name.toList = p.toList ++ List.replicate n Path.separator ++ rest.toList ∧
    (p.toList.getLast? ≠ some Path.separator → 1 ≤ n)

theorem Continues.cut {p name rest : String} (h : Continues p name rest) :
    basename? (ofString name) (ofString p) 0 = some (ofString rest) := by
  obtain ⟨n, whole, -⟩ := h.run
  have cut := basename?_append p.toList (List.replicate n Path.separator ++ rest.toList)
  rw [Text.dropWhile_run n h.head, if_neg (mt String.toList_eq_nil_iff.mp h.nonempty),
    ← List.append_assoc, ← whole] at cut
  exact cut

theorem IsParentName.cut {p name : String} (h : IsParentName p name) :
    basename? (ofString name) (ofString p) 0 = none := by
  obtain ⟨n, whole⟩ := h
  have cut := basename?_append p.toList (List.replicate n Path.separator)
  rw [if_pos (by simp), ← whole] at cut
  exact cut

/-- A covered name that is not the parent's continues the parent. -/
theorem exists_continues {p name : String} (covered : Path.AtOrAbove p.toList name.toList)
    (other : ¬IsParentName p name) : ∃ rest, Continues p name rest := by
  obtain ⟨r, whole, seam⟩ : ∃ r, name.toList = p.toList ++ r ∧
      (p.toList.getLast? = some Path.separator ∨ r = [] ∨ r.head? = some Path.separator) := by
    rcases covered with same | ⟨r, -, whole, closed | head⟩
    · exact ⟨[], by rw [same, List.append_nil], .inr (.inl rfl)⟩
    · exact ⟨r, whole, .inl closed⟩
    · exact ⟨r, whole, .inr (.inr head)⟩
  obtain ⟨n, run⟩ := Text.exists_run Path.separator r
  have start := Text.head?_dropWhile_ne Path.separator r
  generalize r.dropWhile (· == Path.separator) = rest at run start
  subst run
  rw [← List.append_assoc] at whole
  have nonempty : rest ≠ [] := by
    rintro rfl
    exact other ⟨n, by rw [whole, List.append_nil]⟩
  refine ⟨String.ofList rest, ?_, by rwa [String.toList_ofList], n, by rwa [String.toList_ofList], ?_⟩
  · exact mt String.ofList_eq_empty_iff.mp nonempty
  · intro «open»
    apply Nat.one_le_iff_ne_zero.mpr
    rintro rfl
    rcases seam with closed | none | head
    · exact «open» closed
    · exact nonempty (by simpa using none)
    · exact start head

theorem continues_iff {p name : String} (covered : Path.AtOrAbove p.toList name.toList) :
    (∃ rest, Continues p name rest) ↔ ¬IsParentName p name := by
  constructor
  · rintro ⟨rest, continued⟩ parent
    exact Option.some_ne_none _ (continued.cut.symm.trans parent.cut)
  · exact exists_continues covered

theorem Naming.ofKey_of_cut {k : Key} (parent : Option Parent) {rest : Bytes}
    (cut : (parent.bind fun p => basename? (ofString k.name) (ofString p.name) p.size) = some rest)
    (o : Options) : Naming.ofKey k parent o = .ok (.basename rest) := by
  rw [Naming.ofKey, cut]

/-- Where nothing is cut off a key is named as on its own. -/
theorem Naming.ofKey_of_uncut {k : Key} (parent : Option Parent)
    (uncut : (parent.bind fun p => basename? (ofString k.name) (ofString p.name) p.size) = none)
    (o : Options) : Naming.ofKey k parent o = Naming.ofKey k none o := by
  rw [Naming.ofKey, uncut]
  rfl

theorem key_of_continues {p rest : String} {k : Key} (h : Continues p k.name rest) (o : Options) :
    key k (some { name := p }) o = { fragments := element (.basename (ofString rest)) k o.condensed } := by
  rw [key, Naming.ofKey_of_cut (some { name := p }) h.cut]

/-- Nothing is left of a parent's name, so its element is the one that it has on its own. -/
theorem key_of_isParentName {p : String} {k : Key} (h : IsParentName p k.name) (o : Options) :
    key k (some { name := p }) o = key k none o := by
  rw [key, key, Naming.ofKey_of_uncut (some { name := p }) h.cut]

theorem element_basename_injective {a b : Bytes} {k : Key} {condensed : Bool}
    (same : element (.basename a) k condensed = element (.basename b) k condensed) : a = b := by
  simpa [element, Naming.fragments] using same

theorem key_none_ne_basename (k : Key) (o : Options) (b : Bytes) :
    key k none o ≠ { fragments := element (.basename b) k o.condensed } := by
  intro same
  have complete : (key k none o).refusal = none := by rw [same]
  rw [key_eq_of_complete complete] at same
  have first := (List.cons.inj (Rendering.mk.inj same).1).1
  exact absurd first (by decide)

theorem key_eq_basename_iff {p : String} {k : Key} (covered : Path.AtOrAbove p.toList k.name.toList)
    (o : Options) (b : Bytes) :
    key k (some { name := p }) o = { fragments := element (.basename b) k o.condensed } ↔
      ∃ rest, b = ofString rest ∧ Continues p k.name rest := by
  constructor
  · intro shown
    by_cases parent : IsParentName p k.name
    · rw [key_of_isParentName parent] at shown
      exact absurd shown (key_none_ne_basename k o b)
    · obtain ⟨rest, continued⟩ := exists_continues covered parent
      rw [key_of_continues continued] at shown
      exact ⟨rest, (element_basename_injective (Rendering.mk.inj shown).1).symm, continued⟩
  · rintro ⟨rest, rfl, continued⟩
    exact key_of_continues continued o

/-- The common parent covers all names. In the hierarchical layout an element shows just what continues
the parent, if anything does; otherwise it is the one that the key has on its own. -/
theorem hierarchical_layout {ks : KeySet} {p : String} (common : ks.commonParent? = some p) :
    p ≠ "" ∧ (∀ k ∈ ks.keys, Path.AtOrAbove p.toList k.name.toList) ∧
      ∀ o : Options, o.hierarchical = true →
        document ks o = { fragments := opening ks o } ++
            .concat (ks.keys.map fun k => key k (some { name := p }) o) ++
            { fragments := [ofString "</keyset>\n"] } ∧
          ∀ k ∈ ks.keys,
            (∀ b, key k (some { name := p }) o = { fragments := element (.basename b) k o.condensed } ↔
              ∃ rest, b = ofString rest ∧ Continues p k.name rest) ∧
            ((∃ rest, Continues p k.name rest) ↔ ¬IsParentName p k.name) ∧
            (IsParentName p k.name → key k (some { name := p }) o = key k none o) := by
  obtain ⟨nonempty, covered⟩ := KeySet.atOrAbove_of_commonParent? common
  refine ⟨nonempty, covered, ?_⟩
  intro o hierarchical
  have parent : parent? ks o = some p := by rw [parent?, if_pos hierarchical, common]
  refine ⟨?_, ?_⟩
  · rw [document, elements, parent]
    rfl
  · intro k mem
    exact ⟨key_eq_basename_iff (covered k mem) o, continues_iff (covered k mem),
      fun own => key_of_isParentName own o⟩

/-- The parent itself, the parent behind which only separators follow, and a name behind a run. -/
theorem layout_around_runs :
    let ks : KeySet := ⟨[{ name := "user:/a" }, { name := "user:/a//" }, { name := "user:/a//b/" }],
      by decide⟩
    ks.commonParent? = some "user:/a" ∧
      "user:/a" ≠ "" ∧ (∀ k ∈ ks.keys, Path.AtOrAbove "user:/a".toList k.name.toList) ∧
      ∀ o : Options, o.hierarchical = true →
        document ks o = { fragments := opening ks o } ++
            .concat (ks.keys.map fun k => key k (some { name := "user:/a" }) o) ++
            { fragments := [ofString "</keyset>\n"] } ∧
          ∀ k ∈ ks.keys,
            (∀ b, key k (some { name := "user:/a" }) o =
                { fragments := element (.basename b) k o.condensed } ↔
              ∃ rest, b = ofString rest ∧ Continues "user:/a" k.name rest) ∧
            ((∃ rest, Continues "user:/a" k.name rest) ↔ ¬IsParentName "user:/a" k.name) ∧
            (IsParentName "user:/a" k.name →
              key k (some { name := "user:/a" }) o = key k none o) := by
  intro ks
  have common : ks.commonParent? = some "user:/a" := by decide +kernel
  exact ⟨common, hierarchical_layout common⟩

end KeyExport.Xml
