import KeyExport.Proofs.Sink.Accepting
import KeyExport.Proofs.Xml.Hierarchy

/-!
# Refused documents

A document is refused just if names are shown in full and a key that is written by its name has one that
does not fit into a path. It ends where the first such key would stand, behind complete elements.
-/

namespace KeyExport

open Bytes (ofString)

theorem NameTooLong.message_eq (e : NameTooLong) :
    e.message = "resolved name of " ++ Text.quoted e.name ++ " is " ++ Text.numeral e.length ++
      " bytes, limit is 4096" := by
  have limit : " bytes, limit is " ++ Text.numeral maxPathLength = " bytes, limit is 4096" := by
    decide +kernel
  calc
    e.message = "resolved name of " ++ Text.quoted e.name ++ " is " ++ Text.numeral e.length ++
        (" bytes, limit is " ++ Text.numeral maxPathLength) := String.append_assoc
    _ = _ := congrArg (_ ++ ·) limit

namespace Key

/-- The full name of a key: its owner stands behind the namespace of a user's key, by name or by number. -/
inductive ResolvesTo (k : Key) (numeric : Bool) : String → Prop where
  | qualified {rest owner : String} (user : k.name = "user:" ++ rest) (owned : k.owner = some owner) :
    ResolvesTo k numeric ("user:" ++ (if numeric then Text.numeral k.uid.toNat else owner) ++ rest)
  | stored (free : (∀ rest, k.name ≠ "user:" ++ rest) ∨ k.owner = none) : ResolvesTo k numeric k.name

theorem dropFront?_userNamespace {k : Key} {rest : List Char} :
    Text.dropFront? userNamespace.toList k.name.toList = some rest ↔
      k.name = "user:" ++ String.ofList rest := by
  rw [Text.dropFront?_eq_some_iff, ← String.toList_inj, String.toList_append]
  simp [userNamespace]

/-- Every key has just one full name, the one that is looked up. -/
theorem resolvesTo_iff {k : Key} {numeric : Bool} {s : String} :
    k.ResolvesTo numeric s ↔ s = k.qualifiedName numeric := by
  constructor
  · intro resolved
    cases resolved with
    | @qualified rest owner user owned =>
      have front : Text.dropFront? userNamespace.toList k.name.toList = some rest.toList := by
        rw [dropFront?_userNamespace, String.ofList_toList, user]
      rw [qualifiedName, front, owned]
      simp [userNamespace, ownerText]
    | stored free =>
      unfold qualifiedName
      split
      · next rest owner front owned =>
        rcases free with foreign | none
        · exact absurd (dropFront?_userNamespace.mp front) (foreign _)
        · rw [owned] at none
          cases none
      · rfl
  · rintro rfl
    unfold qualifiedName
    split
    · next rest owner front owned => exact .qualified (dropFront?_userNamespace.mp front) owned
    · next other =>
      apply ResolvesTo.stored
      by_contra! both
      obtain ⟨⟨rest, user⟩, owned⟩ := both
      obtain ⟨owner, owned⟩ := Option.ne_none_iff_exists'.mp owned
      apply other rest.toList owner _ owned
      rw [dropFront?_userNamespace, String.ofList_toList, user]

theorem fullName_eq_error_iff {k : Key} {numeric : Bool} {e : NameTooLong} :
    k.fullName numeric = .error e ↔
      maxPathLength ≤ (k.qualifiedName numeric).utf8ByteSize ∧
        e = ⟨k.name, (k.qualifiedName numeric).utf8ByteSize + 1⟩ := by
  unfold fullName
  by_cases fits : (k.qualifiedName numeric).utf8ByteSize + 1 ≤ maxPathLength
  · simp only [fits, ↓reduceIte, reduceCtorEq, false_iff]
    rintro ⟨long, -⟩
    exact absurd fits (Nat.not_le.mpr (Nat.lt_succ_of_le long))
  · simp only [fits, ↓reduceIte, Except.error.injEq]
    have long := Nat.le_of_lt_succ (Nat.lt_of_not_le fits)
    exact ⟨fun same => ⟨long, same.symm⟩, fun same => same.2.symm⟩

end Key

namespace Xml

/-- The element of the key shows a name: the layout is flat, there is no common parent, or nothing of the
name is left behind it. -/
def WrittenByName (ks : KeySet) (o : Options) (k : Key) : Prop :=
  o.hierarchical = false ∨ ks.commonParent? = none ∨
    ∃ p, ks.commonParent? = some p ∧ IsParentName p k.name

/-- The key is written by its name, in full, and the name takes too many bytes for a path with its
terminator. -/
structure TooLong (ks : KeySet) (o : Options) (k : Key) (s : String) : Prop where
  full : o.fullName = true
  named : WrittenByName ks o k
  resolved : k.ResolvesTo o.numbers s
  long : 4096 ≤ s.utf8ByteSize

theorem TooLong.length {ks : KeySet} {o : Options} {k : Key} {s : String} (h : TooLong ks o k s) :
    k.fullName o.numbers = .error ⟨k.name, s.utf8ByteSize + 1⟩ := by
  obtain rfl := Key.resolvesTo_iff.mp h.resolved
  exact Key.fullName_eq_error_iff.mpr ⟨h.long, rfl⟩

theorem uncut_iff {ks : KeySet} {o : Options} {k : Key} (mem : k ∈ ks.keys) :
    ((documentParent ks o).bind fun p => basename? (ofString k.name) (ofString p.name) p.size) = none ↔
      WrittenByName ks o k := by
  unfold documentParent parent? WrittenByName
  cases o.hierarchical with
  | false => simp
  | true =>
    cases common : ks.commonParent? with
    | none => simp
    | some p =>
      have covered := (KeySet.atOrAbove_of_commonParent? common).2 k mem
      show basename? (ofString k.name) (ofString p) 0 = none ↔ _
      simp only [Bool.true_eq_false, reduceCtorEq, Option.some.injEq, false_or, exists_eq_left']
      constructor
      · intro uncut
        by_contra other
        obtain ⟨rest, continued⟩ := exists_continues covered other
        exact Option.some_ne_none _ (continued.cut.symm.trans uncut)
      · exact IsParentName.cut

theorem refusal_key_iff {k : Key} {parent : Option Parent} {o : Options} {e : NameTooLong} :
    (key k parent o).refusal = some e ↔
      (parent.bind fun p => basename? (ofString k.name) (ofString p.name) p.size) = none ∧
        o.fullName = true ∧ k.fullName o.numbers = .error e := by
  cases cut : parent.bind fun p => basename? (ofString k.name) (ofString p.name) p.size with
  | some rest => simp [key, Naming.ofKey_of_cut parent cut]
  | none =>
    rw [key, Naming.ofKey_of_uncut parent cut, Naming.ofKey]
    cases o.fullName with
    | false => simp
    | true =>
      cases k.fullName o.numbers <;> simp [Rendering.refuse, Except.map]

/-- A key of a set is refused just for a full name that is too long. -/
theorem refusal_key_of_mem {ks : KeySet} {o : Options} {k : Key} (mem : k ∈ ks.keys) {e : NameTooLong} :
    (key k (documentParent ks o) o).refusal = some e ↔
      ∃ s, TooLong ks o k s ∧ e = ⟨k.name, s.utf8ByteSize + 1⟩ := by
  rw [refusal_key_iff, uncut_iff mem]
  constructor
  · rintro ⟨named, full, long⟩
    obtain ⟨le, rfl⟩ := Key.fullName_eq_error_iff.mp long
    exact ⟨_, ⟨full, named, Key.resolvesTo_iff.mpr rfl, le⟩, rfl⟩
  · rintro ⟨s, tooLong, rfl⟩
    exact ⟨tooLong.named, tooLong.full, tooLong.length⟩

theorem refusal_key_eq_none_iff {ks : KeySet} {o : Options} {k : Key} (mem : k ∈ ks.keys) :
    (key k (documentParent ks o) o).refusal = none ↔ ∀ s, ¬TooLong ks o k s := by
  constructor
  · intro complete s tooLong
    have refused := (refusal_key_of_mem mem).mpr ⟨s, tooLong, rfl⟩
    rw [complete] at refused
    cases refused
  · intro fits
    cases refused : (key k (documentParent ks o) o).refusal with
    | none => rfl
    | some e =>
      obtain ⟨s, tooLong, -⟩ := (refusal_key_of_mem mem).mp refused
      exact absurd tooLong (fits s)

theorem complete_iff {ks : KeySet} {o : Options} :
    (document ks o).refusal = none ↔ ∀ k ∈ ks.keys, ∀ s, ¬TooLong ks o k s := by
  constructor
  · intro complete k mem
    exact (refusal_key_eq_none_iff mem).mp (complete_keys complete k mem)
  · intro fits
    rw [document_eq_of_complete_keys fun k mem => (refusal_key_eq_none_iff mem).mpr (fits k mem)]

/-- What is not written by name shows a basename, and no name is too long for that. -/
theorem exists_basename_of_not_writtenByName {ks : KeySet} {o : Options} {k : Key} (mem : k ∈ ks.keys)
    (other : ¬WrittenByName ks o k) :
    ∃ rest, key k (documentParent ks o) o =
      { fragments := element (.basename rest) k o.condensed } := by
  obtain ⟨rest, cut⟩ := Option.ne_none_iff_exists'.mp (mt (uncut_iff mem).mp other)
  exact ⟨rest, by rw [key, Naming.ofKey_of_cut _ cut]⟩

/-- A refused document holds its opening and the elements of all keys in front of the first whose name is
too long. -/
theorem exists_tooLong {ks : KeySet} {o : Options} {e : NameTooLong}
    (h : (document ks o).refusal = some e) :
    ∃ before k after s, ks.keys = before ++ k :: after ∧ (∀ b ∈ before, ∀ t, ¬TooLong ks o b t) ∧
      TooLong ks o k s ∧ e = ⟨k.name, s.utf8ByteSize + 1⟩ ∧
      (document ks o).bytes = (opening ks o).flatten ++
        before.flatMap fun b => (element (.shown b (documentParent ks o) o) b o.condensed).flatten := by
  obtain ⟨before, k, after, whole, complete, refused⟩ := exists_refused_key h
  have inside : ∀ b ∈ before, b ∈ ks.keys := by
    intro b mem
    rw [whole]
    exact List.mem_append_left _ mem
  obtain ⟨s, tooLong, rfl⟩ := (refusal_key_of_mem (by rw [whole]; simp)).mp refused
  refine ⟨before, k, after, s, whole, ?_, tooLong, rfl, ?_⟩
  · intro b mem
    exact (refusal_key_eq_none_iff (inside b mem)).mp (complete b mem)
  · rw [document_eq_of_refused whole complete refused, Rendering.bytes, List.flatten_append,
      Rendering.flatten_flatMap]
    apply congrArg ((opening ks o).flatten ++ ·)
    refine List.flatMap_congr fun b mem => ?_
    rw [key_eq_of_complete (complete b mem)]

/-- In memory a document is refused just if some key has a full name that is too long. The first such key
is reported, after the opening and the complete elements of the keys before it. -/
theorem refused_just_for_long_names (ks : KeySet) (o : Options) :
    ((∃ e, ((document ks o).writeTo ({} : Memory)).1 = .error e) ↔
        ∃ k ∈ ks.keys, ∃ s, TooLong ks o k s) ∧
      (∀ e, ((document ks o).writeTo ({} : Memory)).1 = .error e →
        ∃ before k after s, ks.keys = before ++ k :: after ∧
          (∀ b ∈ before, ∀ t, ¬TooLong ks o b t) ∧ TooLong ks o k s ∧
          e = .nameTooLong ⟨k.name, s.utf8ByteSize + 1⟩ ∧
          e.message = "resolved name of " ++ Text.quoted k.name ++ " is " ++
            Text.numeral (s.utf8ByteSize + 1) ++ " bytes, limit is 4096" ∧
          ((document ks o).writeTo ({} : Memory)).2.contents = (opening ks o).flatten ++
            before.flatMap fun b =>
              (element (.shown b (documentParent ks o) o) b o.condensed).flatten) ∧
      (o.fullName = false → ∃ n, ((document ks o).writeTo ({} : Memory)).1 = .ok n) ∧
      ∀ k ∈ ks.keys, ¬WrittenByName ks o k →
        ∃ rest, key k (documentParent ks o) o =
          { fragments := element (.basename rest) k o.condensed } := by
  refine ⟨⟨?_, ?_⟩, ?_, ?_, fun k mem => exists_basename_of_not_writtenByName mem⟩
  · rintro ⟨e, failed⟩
    obtain ⟨d, -, refused⟩ := Memory.writeTo_error_iff.mp failed
    obtain ⟨before, k, after, s, whole, -, tooLong, -⟩ := exists_tooLong refused
    exact ⟨k, by rw [whole]; simp, s, tooLong⟩
  · rintro ⟨k, mem, s, tooLong⟩
    cases refused : (document ks o).refusal with
    | none => exact absurd tooLong (complete_iff.mp refused k mem s)
    | some d => exact ⟨_, Memory.writeTo_error_iff.mpr ⟨d, rfl, refused⟩⟩
  · intro e failed
    obtain ⟨d, rfl, refused⟩ := Memory.writeTo_error_iff.mp failed
    obtain ⟨before, k, after, s, whole, fit, tooLong, rfl, bytes⟩ := exists_tooLong refused
    refine ⟨before, k, after, s, whole, fit, tooLong, rfl, NameTooLong.message_eq _, ?_⟩
    exact (Memory.writeTo_eq _ _).2.trans bytes
  · intro plain
    apply Memory.writeTo_ok_iff.mpr
    apply complete_iff.mpr
    intro k _ s tooLong
    exact absurd tooLong.full (by simp [plain])

end Xml

end KeyExport
