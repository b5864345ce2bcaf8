import KeyExport.Proofs.Path.Ascent

/-!
# Segments

Among well-formed paths, nothing that covers a path is missed on the way up from it: what stands below a
well-formed path ends in a segment, and without that segment it still stands at or below the path. So the
common parent of well-formed paths lies at or below every candidate that covers them.
-/

namespace KeyExport.Path

theorem below_append (p : Path) (r s : List Char) : p.below (r ++ s) = p.below r ++ s := by
  unfold below
  split <;> simp

theorem covers_below {p : Path} {r : List Char} (more : r ≠ []) : p.covers (p.below r) = true := by
  obtain ⟨c, s, rfl⟩ := List.exists_cons_of_ne_nil more
  apply covers_iff.mpr
  unfold below
  split
  · next closed => exact .inr ⟨c, s, rfl, .inr closed⟩
  · exact .inr ⟨separator, c :: s, rfl, .inl rfl⟩

namespace WellFormed

theorem single_of_covers {q n : Path} (lower : n.WellFormed) (h : q.covers n = true) :
    ¬[separator, separator] <:+: q :=
  fun twice => lower.single (twice.trans (prefix_of_covers h).isInfix)

/-- A separator at the end is that of a root. -/
theorem root_of_closed {p : Path} (wf : p.WellFormed) {up : Path} (closed : p = up ++ [separator]) :
    up = [] ∨ up.getLast? = some ':' := by
  subst closed
  rcases wf.ending with ⟨ordinary, -⟩ | root | ⟨space, root⟩
  · simp at ordinary
  · exact .inl (by simpa using root)
  · right
    rw [List.append_cons space, List.append_left_inj] at root
    simp [← root]

/-- One step up from below a well-formed path does not go past it. -/
theorem exists_parent?_below {p : Path} (wf : p.WellFormed) {rest : List Char} (more : rest ≠ [])
    (head : rest.head? ≠ some separator) :
    ∃ q, (p.below rest).parent? = some q ∧ p.covers q = true := by
  obtain ⟨c, cs, rfl⟩ := List.exists_cons_of_ne_nil more
  obtain ⟨front, segment, trailing, e, nonempty, whole, start⟩ :=
    exists_last_segment ⟨c, List.mem_cons_self, by simpa using head⟩
  rw [e] at head ⊢
  rcases start with rfl | ⟨up, rfl⟩
  · -- the only segment: its parent is `p`
    refine ⟨p, ?_, covers_refl p⟩
    by_cases closed : p.getLast? = some separator
    · obtain ⟨up, rfl⟩ := List.getLast?_eq_some_iff.mp closed
      rw [below, if_pos closed, List.nil_append, List.append_assoc, List.singleton_append,
        parent?_of_segment nonempty whole, if_pos (wf.root_of_closed rfl)]
    · rw [below, if_neg closed, List.nil_append, parent?_of_segment nonempty whole, if_neg]
      exact not_or.mpr ⟨wf.nonempty, wf.not_ends_in_colon⟩
  · have inner : up ≠ [] := by
      rintro rfl
      simp at head
    rw [List.append_assoc, List.singleton_append, below_append, parent?_of_segment nonempty whole]
    refine ⟨_, rfl, ?_⟩
    split
    · rw [← below_append]
      exact covers_below (by simp)
    · exact covers_below inner

/-- Among well-formed paths, going up misses nothing that covers the path. -/
theorem reaches {q n : Path} (upper : q.WellFormed) (lower : n.WellFormed) (h : q.covers n = true) :
    Reaches n q := by
  rcases upper.eq_below lower h with rfl | ⟨rest, rfl, more, head⟩
  · exact .here _
  · obtain ⟨p, parent, covered⟩ := upper.exists_parent?_below more head
    have shorter := parent?_length_lt parent
    exact .up parent (upper.reaches (lower.of_parent? parent) covered)
termination_by n.length

theorem of_reaches {p q : Path} (wf : p.WellFormed) (h : Reaches p q) : q.WellFormed := by
  induction h with
  | here => exact wf
  | up parent _ ih => exact ih (wf.of_parent? parent)

end WellFormed

/-! ## Candidates -/

/-- What may be a parent: a separator at the end belongs to a root. -/
structure Candidate (q : Path) : Prop where
  nonempty : q ≠ []
  ending : q.getLast? ≠ some separator ∨ q = [separator] ∨ [':', separator] <:+ q

theorem WellFormed.candidate {q : Path} (wf : q.WellFormed) : q.Candidate := by
  refine ⟨wf.nonempty, ?_⟩
  rcases wf.ending with ⟨ordinary, -⟩ | root
  · exact .inl ordinary
  · exact .inr root

/-- Below a candidate that covers well-formed paths there is a well-formed one that does: the candidate,
or the root of the namespace that it names. -/
theorem Candidate.exists_wellFormed {q : Path} (candidate : q.Candidate) {ns : List Path} (inhabited : ns ≠ [])
    (wf : ∀ n ∈ ns, n.WellFormed) (covered : ∀ n ∈ ns, q.covers n = true) :
    ∃ w : Path, w.WellFormed ∧ q.covers w = true ∧ ∀ n ∈ ns, w.covers n = true := by
  obtain ⟨m, mem⟩ := List.exists_mem_of_ne_nil ns inhabited
  have single := (wf m mem).single_of_covers (covered m mem)
  by_cases space : q.getLast? = some ':'
  · obtain ⟨name, rfl⟩ := List.getLast?_eq_some_iff.mp space
    have below : ∀ n ∈ ns, ∃ r, n = name ++ [':', separator] ++ r := by
      intro n mem
      rcases covers_iff.mp (covered n mem) with rfl | ⟨c, r, rfl, seam⟩
      · exact absurd space (wf _ mem).not_ends_in_colon
      · obtain rfl := seam.resolve_right (by simp [separator])
        exact ⟨r, by simp⟩
    refine ⟨name ++ [':', separator], ⟨by simp, ?_, .inr (.inr ⟨name, rfl⟩)⟩, ?_, ?_⟩
    · obtain ⟨r, rfl⟩ := below m mem
      exact fun twice => (wf _ mem).single (twice.trans (List.prefix_append _ r).isInfix)
    · exact covers_iff.mpr (.inr ⟨separator, [], by simp, .inl rfl⟩)
    · intro n mem
      obtain ⟨r, rfl⟩ := below n mem
      cases r with
      | nil => rw [List.append_nil]; exact covers_refl _
      | cons c r => exact covers_iff.mpr (.inr ⟨c, r, rfl, .inr (by simp)⟩)
  · refine ⟨q, ⟨candidate.nonempty, single, ?_⟩, covers_refl q, covered⟩
    rcases candidate.ending with ordinary | root
    · exact .inl ⟨ordinary, space⟩
    · exact .inr root

theorem exists_common?_of_candidate {ns : List Path} (wf : ∀ n ∈ ns, n.WellFormed) {q : Path}
    (candidate : q.Candidate) (inhabited : ns ≠ []) (covered : ∀ n ∈ ns, q.covers n = true) :
    ∃ p, common? ns = some p ∧ q.covers p = true := by
  obtain ⟨w, upper, above, all⟩ := candidate.exists_wellFormed inhabited wf covered
  obtain ⟨n, ns, rfl⟩ := List.exists_cons_of_ne_nil inhabited
  have passed := upper.reaches (wf n List.mem_cons_self) (all n List.mem_cons_self)
  obtain ⟨p, found, reached⟩ := exists_common? passed upper.nonempty all
  exact ⟨p, found, covers_trans above reached.covers⟩

end KeyExport.Path
