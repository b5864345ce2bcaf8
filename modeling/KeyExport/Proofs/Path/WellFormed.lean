import KeyExport.Proofs.Path.Ancestry
import Mathlib.Data.List.Infix

/-!
# Well-formed paths

In a well-formed path separators stand alone, and only a root ends in one. All ancestors that going up
reaches are well-formed again. Below a well-formed ancestor, a well-formed path is determined by what
is left of it without the ancestor and the separator between them.
-/

namespace KeyExport.Path

/-- A separator at the end belongs to a root, `/` or one that follows a namespace and its colon. -/
structure WellFormed (n : Path) : Prop where
  nonempty : n ≠ []
  single : ¬[separator, separator] <:+: n
  ending : (n.getLast? ≠ some separator ∧ n.getLast? ≠ some ':') ∨ n = [separator] ∨
    [':', separator] <:+ n

instance (n : Path) : Decidable n.WellFormed :=
  decidable_of_iff (n ≠ [] ∧ ¬[separator, separator] <:+: n ∧
      ((n.getLast? ≠ some separator ∧ n.getLast? ≠ some ':') ∨ n = [separator] ∨ [':', separator] <:+ n))
    ⟨fun ⟨nonempty, single, ending⟩ => ⟨nonempty, single, ending⟩,
      fun wf => ⟨wf.nonempty, wf.single, wf.ending⟩⟩

namespace WellFormed

theorem of_parent? {p q : Path} (h : p.parent? = some q) (wf : p.WellFormed) : q.WellFormed := by
  obtain ⟨up, segment, trailing, rfl, -, -, rfl⟩ := parent?_eq_some_iff.mp h
  have single : ¬[separator, separator] <:+: up ++ [separator] := by
    intro inside
    apply wf.single
    obtain ⟨front, back, e⟩ := inside
    refine ⟨front, back ++ (segment ++ List.replicate trailing separator), ?_⟩
    rw [← List.append_assoc, e]
    simp
  by_cases empty : up = []
  · subst empty
    exact ⟨by simp, single, .inr (.inl rfl)⟩
  by_cases root : up.getLast? = some ':'
  · obtain ⟨space, rfl⟩ := List.getLast?_eq_some_iff.mp root
    rw [if_pos (.inr root)]
    exact ⟨by simp, single, .inr (.inr ⟨space, by simp⟩)⟩
  · rw [if_neg (by simp [empty, root])]
    refine ⟨empty, ?_, .inl ⟨?_, root⟩⟩
    · rintro ⟨front, back, e⟩
      exact single ⟨front, back ++ [separator], by rw [← e]; simp⟩
    · intro last
      obtain ⟨front, rfl⟩ := List.getLast?_eq_some_iff.mp last
      exact single ⟨front, [], by simp⟩

theorem of_common? {p : Path} {ns : List Path} (h : common? ns = some p)
    (all : ∀ n ∈ ns, n.WellFormed) : p.WellFormed :=
  common?_preserves of_parent? h all

theorem not_ends_in_colon {n : Path} (wf : n.WellFormed) : n.getLast? ≠ some ':' := by
  rcases wf.ending with ⟨-, ne⟩ | rfl | ⟨front, rfl⟩
  · exact ne
  · decide
  · simp [separator]

end WellFormed

/-- The path that continues `p` with `rest`, after a separator unless `p` ends in one. -/
def below (p : Path) (rest : List Char) : Path :=
  if p.getLast? = some separator then p ++ rest else p ++ separator :: rest

/-- What stands below a well-formed path in a well-formed one does not begin with a separator. -/
theorem WellFormed.eq_below {p n : Path} (upper : p.WellFormed) (lower : n.WellFormed)
    (h : p.covers n = true) :
    n = p ∨ ∃ rest, n = p.below rest ∧ rest ≠ [] ∧ rest.head? ≠ some separator := by
  rcases covers_iff.mp h with rfl | ⟨c, r, rfl, bounded⟩
  · exact .inl rfl
  right
  by_cases closed : p.getLast? = some separator
  · refine ⟨c :: r, by simp [below, closed], by simp, ?_⟩
    simp only [List.head?_cons, ne_eq, Option.some.injEq]
    rintro rfl
    obtain ⟨front, rfl⟩ := List.getLast?_eq_some_iff.mp closed
    exact lower.single ⟨front, r, by simp⟩
  · obtain rfl : c = separator := bounded.resolve_right closed
    refine ⟨r, by simp [below, closed], ?_, ?_⟩
    · rintro rfl
      rcases lower.ending with ⟨open_, -⟩ | root | root
      · simp at open_
      · exact upper.nonempty (List.append_left_eq_self.mp root)
      · obtain ⟨front, e⟩ := root
        rw [List.append_cons front] at e
        have colon := (List.append_inj' e rfl).1
        exact upper.not_ends_in_colon (by simp [← colon])
    · intro head
      obtain ⟨s, rfl⟩ := List.head?_eq_some_iff.mp head
      exact lower.single ⟨p, s, by simp⟩

end KeyExport.Path
