import KeyExport.Proofs.Xml.Hierarchy
import KeyExport.Proofs.Xml.Layout

/-!
# Keys below a given parent

Of a parent as many bytes count as are asked for, or all. Where a name begins with them and something
other than separators follows, the element shows what follows the separators, and no name is looked up.
In all other cases the key is written as on its own.
-/

namespace KeyExport.Xml

open Bytes (ofString)

/-- The byte of a separator. -/
def slash : UInt8 := 0x2F

/-- How many bytes of the parent and of a name are compared. -/
def Parent.compared (p : Parent) : Nat := if p.size = 0 then p.name.utf8ByteSize else p.size

namespace Parent

/-- The name begins with the bytes that count, and not only separators follow. -/
structure Cuts (p : Parent) (name : String) : Prop where
  inParent : p.compared ≤ p.name.utf8ByteSize
  inName : p.compared ≤ name.utf8ByteSize
  same : (ofString name).take p.compared = (ofString p.name).take p.compared
  more : ∃ x ∈ (ofString name).drop p.compared, x ≠ slash

instance (p : Parent) (name : String) : Decidable (p.Cuts name) :=
  decidable_of_iff
    (p.compared ≤ p.name.utf8ByteSize ∧ p.compared ≤ name.utf8ByteSize ∧
      (ofString name).take p.compared = (ofString p.name).take p.compared ∧
      ∃ x ∈ (ofString name).drop p.compared, x ≠ slash)
    ⟨fun ⟨inParent, inName, same, more⟩ => ⟨inParent, inName, same, more⟩,
      fun ⟨inParent, inName, same, more⟩ => ⟨inParent, inName, same, more⟩⟩

/-- The name is what is compared, a run of separators and `b`, which begins with something else. -/
structure Leaves (p : Parent) (name : String) (b : Bytes) : Prop where
  nonempty : b ≠ []
  head : b.head? ≠ some slash
  run : ∃ n, ofString name = (ofString name).take p.compared ++ (List.replicate n slash ++ b)

/-- What follows the separators behind the bytes that are compared. -/
def rest (p : Parent) (name : String) : Bytes :=
  ((ofString name).drop p.compared).dropWhile (· == slash)

variable {p : Parent} {name : String}

theorem rest_ne_nil_iff : p.rest name ≠ [] ↔ ∃ x ∈ (ofString name).drop p.compared, x ≠ slash := by
  rw [rest, ne_eq, List.dropWhile_eq_nil_iff]
  simp only [beq_iff_eq, not_forall, exists_prop]

theorem Cuts.leaves (h : p.Cuts name) : p.Leaves name (p.rest name) := by
  obtain ⟨n, run⟩ := Text.exists_run slash ((ofString name).drop p.compared)
  refine ⟨rest_ne_nil_iff.mpr h.more, Text.head?_dropWhile_ne slash _, n, ?_⟩
  rw [rest, ← run, List.take_append_drop]

/-- The name leaves nothing else. -/
theorem Cuts.leaves_iff (h : p.Cuts name) {b : Bytes} : p.Leaves name b ↔ b = p.rest name := by
  constructor
  · rintro ⟨-, head, n, whole⟩
    -- As `b` does not begin with a separator, the run is as long as it can be.
    have behind : (ofString name).drop p.compared = List.replicate n slash ++ b :=
      List.append_cancel_left ((List.take_append_drop _ _).trans whole)
    rw [rest, behind]
    exact (Text.dropWhile_run n head).symm
  · rintro rfl
    exact h.leaves

theorem skip_eq_compared :
    (if p.size = 0 then (ofString p.name).length else p.size) = p.compared := by
  rw [compared, Bytes.length_ofString]

theorem basename?_of_cuts (h : p.Cuts name) :
    basename? (ofString name) (ofString p.name) p.size = some (p.rest name) := by
  have nonempty := rest_ne_nil_iff.mpr h.more
  have applies : p.compared ≤ (ofString p.name).length ∧ p.compared ≤ (ofString name).length ∧
      (ofString name).take p.compared = (ofString p.name).take p.compared := by
    rw [Bytes.length_ofString, Bytes.length_ofString]
    exact ⟨h.inParent, h.inName, h.same⟩
  unfold rest slash at nonempty ⊢
  rw [basename?, skip_eq_compared, if_pos applies]
  split
  · next nothing => exact absurd nothing nonempty
  · rfl

theorem basename?_of_not_cuts (other : ¬p.Cuts name) :
    basename? (ofString name) (ofString p.name) p.size = none := by
  rw [basename?, skip_eq_compared]
  split
  · next applies =>
    rw [Bytes.length_ofString, Bytes.length_ofString] at applies
    have nothing : p.rest name = [] := by
      by_contra some
      exact other ⟨applies.1, applies.2.1, applies.2.2, rest_ne_nil_iff.mp some⟩
    unfold rest slash at nothing
    rw [nothing]
  · rfl

end Parent

theorem key_of_cuts {p : Parent} {k : Key} (h : p.Cuts k.name) (o : Options) :
    key k (some p) o = { fragments := element (.basename (p.rest k.name)) k o.condensed } := by
  rw [key, Naming.ofKey_of_cut (some p) (Parent.basename?_of_cuts h)]

theorem key_of_not_cuts {p : Parent} {k : Key} (other : ¬p.Cuts k.name) (o : Options) :
    key k (some p) o = key k none o := by
  rw [key, key, Naming.ofKey_of_uncut (some p) (Parent.basename?_of_not_cuts other)]

theorem key_eq_basename_iff_cuts {k : Key} {p : Parent} {o : Options} {b : Bytes} :
    key k (some p) o = { fragments := element (.basename b) k o.condensed } ↔
      p.Cuts k.name ∧ p.Leaves k.name b := by
  constructor
  · intro shown
    by_cases cuts : p.Cuts k.name
    · rw [key_of_cuts cuts] at shown
      have same := element_basename_injective (Rendering.mk.inj shown).1
      exact ⟨cuts, cuts.leaves_iff.mpr same.symm⟩
    · rw [key_of_not_cuts cuts] at shown
      exact absurd shown (key_none_ne_basename k o b)
  · rintro ⟨cuts, leaves⟩
    rw [key_of_cuts cuts, cuts.leaves_iff.mp leaves]

theorem not_basename_front_of_name (tail : Bytes) :
    ¬ofString "<key basename=\"" <+: ofString "<key name=\"" ++ tail := by
  intro front
  -- The first byte of the attribute's name tells them apart.
  have basename : ofString "<key b" <+: ofString "<key name=\"" ++ tail :=
    List.IsPrefix.trans (by decide) front
  have name : ofString "<key b" <+: ofString "<key name=\"" :=
    List.prefix_of_prefix_length_le basename (List.prefix_append _ tail) (by decide)
  exact absurd name (by decide)

theorem not_basename_front_of_none (k : Key) (o : Options) :
    ¬ofString "<key basename=\"" <+: (key k none o).bytes := by
  cases refusal : (key k none o).refusal with
  | none =>
    rw [key_eq_of_complete refusal, Rendering.bytes, flatten_element]
    show ¬_ <+: (ofString "<key name=\"" ++ _) ++ _
    rw [List.append_assoc]
    exact not_basename_front_of_name _
  | some e =>
    rw [(key_refused refusal).1]
    exact fun front => absurd (List.prefix_nil.mp front) (by decide)

/-- An element shows a basename just if the parent cuts the name. -/
theorem basename_front_iff {k : Key} {p : Parent} {o : Options} :
    ofString "<key basename=\"" <+: (key k (some p) o).bytes ↔ p.Cuts k.name := by
  constructor
  · intro front
    by_contra other
    rw [key_of_not_cuts other] at front
    exact not_basename_front_of_none k o front
  · intro cuts
    rw [key_of_cuts cuts, Rendering.bytes, flatten_element]
    exact (List.prefix_append _ _).trans (List.prefix_append _ _)

/-- The element shows `b`; behind it, it is the one that the key has under its own name. Neither the owner
nor what is asked of names makes a difference, and no name is too long. -/
structure ShowsBasename (k : Key) (p : Parent) (o : Options) (b : Bytes) : Prop where
  leaves : p.Leaves k.name b
  layout : ∃ tail,
    (Export.key k (some p) o).inMemory = ofString "<key basename=\"" ++ (b ++ (ofString "\"" ++ tail)) ∧
    (Export.key k none { o with fullName := false }).inMemory =
      ofString "<key name=\"" ++ (ofString k.name ++ (ofString "\"" ++ tail))
  complete : (Export.key k (some p) o).resultInMemory = .ok (Export.key k (some p) o).inMemory.length
  unresolved : ∀ owner uid fullName numbers,
    key { k with owner, uid } (some p) { o with fullName, numbers } = key k (some p) o
  never_tooLong : ∀ {σ : Type} [Sink σ] (s : σ) (e : NameTooLong),
    ((Export.key k (some p) o).writeTo s).1 ≠ .error (.nameTooLong e)

theorem showsBasename_of_cuts {k : Key} {p : Parent} (cuts : p.Cuts k.name) (o : Options) :
    ShowsBasename k p o (p.rest k.name) := by
  have shown := key_of_cuts cuts o
  have rendered : (Export.key k (some p) o).rendering = _ := shown
  have plain : key k none { o with fullName := false } =
      { fragments := element (.name k.name) k o.condensed } := rfl
  refine ⟨cuts.leaves, ⟨(body o.condensed k.value k.comment).flatten, ?_, ?_⟩, ?_, ?_, ?_⟩
  · rw [Export.inMemory_eq, rendered, Rendering.bytes, flatten_element]
    simp [Naming.head]
  · rw [Export.inMemory_eq, Export.rendering, plain, Rendering.bytes, flatten_element]
    simp [Naming.head]
  · rw [Export.resultInMemory_eq, Export.inMemory_eq, rendered]
    rfl
  · intro owner uid fullName numbers
    rw [shown]
    exact key_of_cuts (k := { k with owner, uid }) cuts { o with fullName, numbers }
  · intro σ _ s
    exact Rendering.writeTo_ne_tooLong (by rw [rendered]) s

/-- An element shows a basename just if the first bytes that count are there, are the same in the parent
and in the name, and not only separators follow; and then it shows what follows these. Otherwise the
key is written as on its own, into whatever sink. -/
theorem basename_cut_exactly (k : Key) (p : Parent) (o : Options) :
    (ofString "<key basename=\"" <+: (Export.key k (some p) o).inMemory ↔ p.Cuts k.name) ∧
      (∀ b, key k (some p) o = { fragments := element (.basename b) k o.condensed } ↔
        p.Cuts k.name ∧ p.Leaves k.name b) ∧
      (p.Cuts k.name → ∃ b, ShowsBasename k p o b) ∧
      (¬p.Cuts k.name → ∀ {σ : Type} [Sink σ] (s : σ),
        (Export.key k (some p) o).writeTo s = (Export.key k none o).writeTo s) := by
  refine ⟨?_, fun b => key_eq_basename_iff_cuts, ?_, ?_⟩
  · rw [Export.inMemory_eq]
    exact basename_front_iff
  · intro cuts
    exact ⟨p.rest k.name, showsBasename_of_cuts cuts o⟩
  · intro other σ _ s
    exact congrArg (Rendering.writeTo · s) (key_of_not_cuts other o)

/-- What counts may end inside a character. -/
example : ({ name := "aè", size := 2 } : Parent).Cuts "aé/b" := by decide

end KeyExport.Xml
