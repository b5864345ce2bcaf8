import KeyExport.Proofs.Path.WellFormed

/-!
# Going up

Covering is an order, and the paths that cover one path are a chain of it.

Going up from a path passes its parent, the parent of that, and so on. `common?` finds, of what is passed
on the way up from the first path, the nearest that covers all paths; so apart from the first path only
their set matters.

Among well-formed paths going up passes exactly the well-formed ancestors. Others can be missed: going up
drops all separators at the end of a path at once, and it keeps one of several separators in a row.
-/

namespace KeyExport.Path

/-- The same path, or one that continues with the next segment: there is a separator at the seam. -/
def AtOrAbove (q n : Path) : Prop :=
  n = q ∨ ∃ r, r ≠ [] ∧ n = q ++ r ∧ (q.getLast? = some separator ∨ r.head? = some separator)

theorem covers_iff_atOrAbove {q n : Path} : q.covers n = true ↔ AtOrAbove q n := by
  rw [covers_iff, AtOrAbove]
  apply or_congr_right
  constructor
  · rintro ⟨c, r, rfl, seam⟩
    refine ⟨c :: r, by simp, rfl, ?_⟩
    rcases seam with rfl | closed
    · exact .inr rfl
    · exact .inl closed
  · rintro ⟨r, some, rfl, seam⟩
    obtain ⟨c, r, rfl⟩ := List.exists_cons_of_ne_nil some
    refine ⟨c, r, rfl, ?_⟩
    rcases seam with closed | head
    · exact .inr closed
    · exact .inl (Option.some.inj head)

theorem covers_antisymm {p q : Path} (upper : p.covers q = true) (lower : q.covers p = true) : p = q := by
  have up := (prefix_of_covers upper).length_le
  have down := (prefix_of_covers lower).length_le
  exact (prefix_of_covers upper).eq_of_length (by omega)

theorem covers_of_length_le {p q n : Path} (upper : p.covers n = true) (lower : q.covers n = true)
    (short : p.length ≤ q.length) : p.covers q = true := by
  obtain ⟨s, rfl⟩ :=
    List.prefix_of_prefix_length_le (prefix_of_covers upper) (prefix_of_covers lower) short
  obtain ⟨t, whole⟩ := prefix_of_covers lower
  cases s with
  | nil =>
    rw [List.append_nil]
    exact covers_refl p
  | cons d s =>
    rw [List.append_assoc] at whole
    rcases covers_iff.mp upper with rfl | ⟨c, r, rfl, seam⟩
    · exact absurd (List.append_right_eq_self.mp whole) (by simp)
    · -- both continue `p` with the same character, so there is the same seam
      obtain ⟨rfl, -⟩ := List.cons.inj (List.append_cancel_left whole)
      exact covers_iff.mpr (.inr ⟨d, s, rfl, seam⟩)

/-- The paths that cover one path are a chain. -/
theorem covers_or_covers {p q n : Path} (first : p.covers n = true) (second : q.covers n = true) :
    p.covers q = true ∨ q.covers p = true := by
  rcases Nat.le_total p.length q.length with short | short
  · exact .inl (covers_of_length_le first second short)
  · exact .inr (covers_of_length_le second first short)

/-- Nothing but the empty path covers the empty path. -/
theorem eq_nil_of_covers_nil {q : Path} (h : q.covers [] = true) : q = [] :=
  List.prefix_nil.mp (prefix_of_covers h)

/-- Going up from `p`, starting with `p` itself, passes `q`. -/
inductive Reaches : Path → Path → Prop where
  | here (p : Path) : Reaches p p
  | up {p q r : Path} (parent : p.parent? = some q) (rest : Reaches q r) : Reaches p r

namespace Reaches

theorem covers {p q : Path} (h : Reaches p q) : q.covers p = true := by
  induction h with
  | here p => exact covers_refl p
  | up parent _ ih => exact covers_trans ih (covers_of_parent? parent)

theorem trans {p q r : Path} (first : Reaches p q) (second : Reaches q r) : Reaches p r := by
  induction first with
  | here => exact second
  | up parent _ ih => exact .up parent (ih second)

theorem ne_nil {p q : Path} (h : Reaches p q) (some : p ≠ []) : q ≠ [] := by
  induction h with
  | here => exact some
  | up parent _ ih => exact ih (ne_nil_of_parent? parent)

end Reaches

theorem reaches_of_climb {p n q : Path} (h : climb p n = some q) : Reaches p q := by
  fun_induction climb p n with
  | case1 p =>
    obtain rfl := Option.some.inj h
    exact .here p
  | case2 => simp at h
  | case3 p _ above parent ih => exact .up parent (ih h)

/-- Going up does not miss what covers the path. -/
theorem exists_climb {p n r : Path} (passed : Reaches p r) (covered : r.covers n = true) :
    ∃ q, climb p n = some q ∧ Reaches q r := by
  induction passed with
  | here p => exact ⟨p, by rw [climb, if_pos covered], .here p⟩
  | @up p q r parent rest ih =>
    by_cases stop : p.covers n = true
    · exact ⟨p, by rw [climb, if_pos stop], .up parent rest⟩
    · obtain ⟨s, found, above⟩ := ih covered
      refine ⟨s, ?_, above⟩
      rw [climb, if_neg stop]
      split
      · next none => rw [parent] at none; cases none
      · next other =>
        obtain rfl := Option.some.inj (parent.symm.trans other)
        exact found

theorem reaches_of_foldlM_climb {p q : Path} {ns : List Path} (h : ns.foldlM climb p = some q) :
    Reaches p q := by
  induction ns generalizing p with
  | nil =>
    obtain rfl : p = q := by simpa using h
    exact .here p
  | cons n ns ih =>
    rw [List.foldlM_cons, Option.bind_eq_bind, Option.bind_eq_some_iff] at h
    obtain ⟨above, climbed, rest⟩ := h
    exact (reaches_of_climb climbed).trans (ih rest)

theorem exists_foldlM_climb {p r : Path} {ns : List Path} (passed : Reaches p r)
    (covered : ∀ n ∈ ns, r.covers n = true) : ∃ q, ns.foldlM climb p = some q ∧ Reaches q r := by
  induction ns generalizing p with
  | nil => exact ⟨p, rfl, passed⟩
  | cons n ns ih =>
    obtain ⟨above, climbed, higher⟩ := exists_climb passed (covered n List.mem_cons_self)
    obtain ⟨q, rest, highest⟩ := ih higher fun m mem => covered m (List.mem_cons_of_mem n mem)
    refine ⟨q, ?_, highest⟩
    rw [List.foldlM_cons, climbed]
    exact rest

/-- On the way up from `p`, `q` is the first that covers all of `ns`. -/
structure Nearest (p : Path) (ns : List Path) (q : Path) : Prop where
  reached : Reaches p q
  covers : ∀ n ∈ ns, q.covers n = true
  first : ∀ r, Reaches p r → (∀ n ∈ ns, r.covers n = true) → Reaches q r

theorem Nearest.of_mem_iff {p q : Path} {ms ns : List Path} (same : ∀ n, n ∈ ms ↔ n ∈ ns)
    (h : Nearest p ms q) : Nearest p ns q :=
  ⟨h.reached, fun n mem => h.covers n ((same n).mpr mem),
    fun r passed covered => h.first r passed fun n mem => covered n ((same n).mp mem)⟩

theorem nearest_of_foldlM_climb {p q : Path} {ns : List Path} (h : ns.foldlM climb p = some q) :
    Nearest p (p :: ns) q := by
  have reached := reaches_of_foldlM_climb h
  refine ⟨reached, List.forall_mem_cons.mpr ⟨reached.covers, (covers_of_foldlM_climb h).2⟩, ?_⟩
  intro r passed covered
  obtain ⟨s, found, above⟩ := exists_foldlM_climb passed (List.forall_mem_cons.mp covered).2
  obtain rfl := Option.some.inj (h.symm.trans found)
  exact above

theorem common?_eq_some_iff {p q : Path} {ns : List Path} :
    common? (p :: ns) = some q ↔ q ≠ [] ∧ Nearest p (p :: ns) q := by
  rw [common?, Option.filter_eq_some_iff]
  constructor
  · rintro ⟨found, some⟩
    exact ⟨by simpa using some, nearest_of_foldlM_climb found⟩
  · rintro ⟨some, nearest⟩
    obtain ⟨s, found, above⟩ :=
      exists_foldlM_climb nearest.reached (List.forall_mem_cons.mp nearest.covers).2
    have below := nearest.first s (reaches_of_foldlM_climb found) (nearest_of_foldlM_climb found).covers
    obtain rfl := covers_antisymm below.covers above.covers
    exact ⟨found, by simpa using some⟩

/-- A common parent is found if the way up from the first path passes one. -/
theorem exists_common? {p r : Path} {ns : List Path} (passed : Reaches p r) (nonempty : r ≠ [])
    (covered : ∀ n ∈ p :: ns, r.covers n = true) : ∃ q, common? (p :: ns) = some q ∧ Reaches q r := by
  obtain ⟨q, found, above⟩ := exists_foldlM_climb passed (List.forall_mem_cons.mp covered).2
  refine ⟨q, ?_, above⟩
  rw [common?, Option.filter_eq_some_iff]
  refine ⟨found, ?_⟩
  simp only [ne_eq, decide_eq_true_eq]
  rintro rfl
  exact nonempty (eq_nil_of_covers_nil above.covers)

theorem climb_of_covers {p n : Path} (covered : p.covers n = true) : climb p n = some p := by
  rw [climb, if_pos covered]

/-- What going up from `p` stops at without stopping at `p` lies above `p`. -/
theorem length_lt_of_climb {p n q : Path} (h : climb p n = some q) (apart : ¬p.covers n = true) :
    q.length < p.length := by
  have reached := reaches_of_climb h
  cases reached with
  | here => exact absurd (covers_of_climb h).2 apart
  | up parent rest =>
    have above := (prefix_of_covers rest.covers).length_le
    have shorter := parent?_length_lt parent
    omega

/-- One more path: from what is common to the others it goes on up. -/
theorem common?_concat (p : Path) (ns : List Path) (n : Path) :
    common? (p :: (ns ++ [n])) = (common? (p :: ns)).bind fun q => climb q n := by
  rw [common?, common?, List.foldlM_append]
  cases ns.foldlM climb p with
  | none => rfl
  | some q =>
    have last : [n].foldlM climb q = climb q n := by simp
    show ([n].foldlM climb q).filter _ = _
    rw [last]
    by_cases empty : q = []
    · subst empty
      -- nothing but the empty path is found on the way up from it
      have nothing : (climb [] n).filter (· ≠ []) = none := by
        rw [Option.filter_eq_none_iff]
        intro r found
        simpa using eq_nil_of_covers_nil (covers_of_climb found).1
      rw [nothing]
      rfl
    · have keeps : (climb q n).filter (· ≠ []) = climb q n := by
        cases found : climb q n with
        | none => rfl
        | some r =>
          have given := (reaches_of_climb found).ne_nil empty
          exact Option.filter_some_pos (by simpa using given)
      rw [keeps, Option.filter_some_pos (by simpa using empty)]
      rfl

end KeyExport.Path
