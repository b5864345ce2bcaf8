import KeyExport.Text.Bytes
import KeyExport.Text.Front

/-!
# Delimited bytes

`upTo? stop` cuts bytes at the first place where `stop` stands. When the last byte of `stop` does not
occur earlier in it, bytes that do not hold `stop` can be followed by it and are cut off again in full:
no occurrence begins in them and ends in the delimiter.
-/

namespace KeyExport.Markup

/-- The bytes before the first `stop`, and those after it. -/
def upTo? (stop : Bytes) : Bytes → Option (Bytes × Bytes)
  | [] => none
  | x :: b =>
    match Text.dropFront? stop (x :: b) with
    | some rest => some ([], rest)
    | none => (upTo? stop b).map fun (front, rest) => (x :: front, rest)

theorem eq_of_upTo? {stop b front rest : Bytes} (h : upTo? stop b = some (front, rest)) :
    b = front ++ stop ++ rest := by
  induction b generalizing front with
  | nil => simp [upTo?] at h
  | cons x b ih =>
    unfold upTo? at h
    split at h
    · next here =>
      cases h
      exact Text.dropFront?_eq_some_iff.mp here
    · obtain ⟨⟨later, _⟩, found, e⟩ := Option.map_eq_some_iff.mp h
      cases e
      rw [ih found, List.cons_append, List.cons_append]

/-- The last byte of a delimiter occurs in it only once. -/
def Delimiter (stop : Bytes) : Prop := ∃ init z, stop = init ++ [z] ∧ z ∉ init

/-- A delimiter at the front of bytes that it also follows stands in those bytes. -/
theorem Delimiter.prefix_of_prefix_append {stop b rest : Bytes} (delimiter : Delimiter stop)
    (nonempty : b ≠ []) (front : stop <+: b ++ (stop ++ rest)) : stop <+: b := by
  obtain ⟨init, z, rfl, absent⟩ := delimiter
  rcases List.prefix_or_prefix_of_prefix front (List.prefix_append b _) with inside | ⟨beyond, e⟩
  · exact inside
  rcases List.eq_nil_or_concat beyond with rfl | ⟨o, last, rfl⟩
  · exact ⟨[], by rw [List.append_nil, ← e, List.append_nil]⟩
  · rw [List.concat_eq_append] at e
    exfalso
    -- what reaches over is shorter than the delimiter, so it lies in front of the last byte
    have reached : o ++ [last] <+: init ++ [z] ++ rest := by
      apply (List.prefix_append_right_inj b).mp
      rwa [e]
    have shorter : (o ++ [last]).length ≤ init.length := by
      have lengths := congrArg List.length e
      have positive := List.length_pos_iff.mpr nonempty
      simp only [List.length_append, List.length_singleton] at lengths ⊢
      omega
    have within : o ++ [last] <+: init :=
      List.prefix_of_prefix_length_le reached (by simp) shorter
    rw [← List.append_assoc] at e
    obtain ⟨-, same⟩ := List.append_inj' e rfl
    cases same
    exact absent (within.subset (by simp))

theorem upTo?_append {stop b : Bytes} (delimiter : Delimiter stop) (absent : ¬stop <:+: b)
    (rest : Bytes) : upTo? stop (b ++ (stop ++ rest)) = some (b, rest) := by
  induction b with
  | nil =>
    obtain ⟨x, stop', e⟩ : ∃ x stop', stop = x :: stop' := by
      obtain ⟨init, z, rfl, -⟩ := delimiter
      exact List.exists_cons_of_ne_nil (by simp)
    have here := Text.dropFront?_append stop rest
    rw [List.nil_append]
    rw [e, List.cons_append] at here ⊢
    rw [upTo?, here]
  | cons x b ih =>
    have elsewhere : Text.dropFront? stop (x :: b ++ (stop ++ rest)) = none := by
      apply Text.dropFront?_eq_none_iff.mpr
      intro front
      apply absent
      exact (delimiter.prefix_of_prefix_append (by simp) front).isInfix
    rw [List.cons_append] at elsewhere ⊢
    rw [upTo?, elsewhere, ih fun inside => absent (List.infix_cons inside)]
    rfl

end KeyExport.Markup
