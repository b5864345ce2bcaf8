import KeyExport.Path
import Mathlib.Data.List.TakeWhile

/-!
# Ancestry of paths

`covers` is read as a statement on how the covered path continues, and `parent?` as a statement on what
it cuts off: the last segment, all separators behind it and the one before. Where there is no separator
before it, there is no parent. Going up therefore only reaches ancestors, and what `common?` finds covers
every path it was computed from.
-/

namespace KeyExport.Path

theorem covers_iff {p n : Path} :
    p.covers n = true ↔
      n = p ∨ ∃ c r, n = p ++ c :: r ∧ (c = separator ∨ p.getLast? = some separator) := by
  unfold covers
  cases front : Text.dropFront? p n with
  | none =>
    have apart := Text.dropFront?_eq_none_iff.mp front
    simp only [Bool.false_eq_true, false_iff]
    rintro (rfl | ⟨c, r, rfl, -⟩)
    · exact apart List.prefix_rfl
    · exact apart (List.prefix_append _ _)
  | some rest =>
    have whole := Text.dropFront?_eq_some_iff.mp front
    subst whole
    cases rest with
    | nil => simp
    | cons c r =>
      simp only [Bool.or_eq_true, beq_iff_eq]
      constructor
      · intro bounded
        exact .inr ⟨c, r, rfl, bounded⟩
      · rintro (same | ⟨d, s, same, bounded⟩)
        · simp at same
        · cases List.append_cancel_left same
          exact bounded

theorem covers_refl (p : Path) : p.covers p = true := covers_iff.mpr (.inl rfl)

theorem covers_trans {q p n : Path} (upper : q.covers p = true) (lower : p.covers n = true) :
    q.covers n = true := by
  rcases covers_iff.mp upper with rfl | ⟨c, r, rfl, bounded⟩
  · exact lower
  · rcases covers_iff.mp lower with rfl | ⟨d, s, rfl, -⟩
    · exact upper
    · exact covers_iff.mpr (.inr ⟨c, r ++ d :: s, by simp, bounded⟩)

theorem prefix_of_covers {p n : Path} (h : p.covers n = true) : p <+: n := by
  rcases covers_iff.mp h with rfl | ⟨c, r, rfl, -⟩
  · exact List.prefix_rfl
  · exact List.prefix_append _ _

/-! ## One level up -/

/-- What stands before the last segment; separators behind that do not count. -/
theorem parent?_of_segment {up segment : Path} (nonempty : segment ≠ []) (whole : separator ∉ segment)
    (trailing : Nat) :
    (up ++ separator :: (segment ++ List.replicate trailing separator)).parent? =
      some (if up = [] ∨ up.getLast? = some ':' then up ++ [separator] else up) := by
  have cut : upToSeparator (up ++ separator :: (segment ++ List.replicate trailing separator)) =
      separator :: up.reverse := by
    obtain ⟨c, back, reversed⟩ := List.exists_cons_of_ne_nil (mt List.reverse_eq_nil_iff.mp nonempty)
    have absent : ∀ d ∈ segment.reverse, (d != separator) = true := by
      intro d mem
      rw [bne_iff_ne]
      rintro rfl
      exact whole (List.mem_reverse.mp mem)
    have first : (c == separator) = false := by
      simpa using absent c (by rw [reversed]; exact List.mem_cons_self)
    unfold upToSeparator
    rw [List.reverse_append, List.reverse_cons, List.reverse_append, List.reverse_replicate,
      List.append_assoc, List.append_assoc, List.dropWhile_append_of_pos (by simp), reversed,
      List.cons_append, List.dropWhile_cons_of_neg (by simp [first]), ← List.cons_append, ← reversed,
      List.dropWhile_append_of_pos absent]
    rfl
  rw [parent?, cut]
  simp only [List.reverse_eq_nil_iff, List.head?_reverse]
  split <;> simp

/-- What holds no separator but at its end has no parent. -/
theorem parent?_of_no_separator {segment : Path} (whole : separator ∉ segment) (trailing : Nat) :
    (segment ++ List.replicate trailing separator).parent? = none := by
  have nothing : upToSeparator (segment ++ List.replicate trailing separator) = [] := by
    unfold upToSeparator
    rw [List.reverse_append, List.reverse_replicate, List.dropWhile_append_of_pos (by simp)]
    apply List.dropWhile_eq_nil_iff.mpr
    intro c mem
    have inside : c ∈ segment := List.mem_reverse.mp ((List.dropWhile_sublist _).mem mem)
    rw [bne_iff_ne]
    rintro rfl
    exact whole inside
  rw [parent?, nothing]

/-- What holds more than separators ends in a segment, perhaps with separators behind it. -/
theorem exists_last_segment {r : List Char} (more : ∃ c ∈ r, c ≠ separator) :
    ∃ front segment trailing, r = front ++ (segment ++ List.replicate trailing separator) ∧
      segment ≠ [] ∧ separator ∉ segment ∧ (front = [] ∨ ∃ up, front = up ++ [separator]) := by
  obtain ⟨trailing, run⟩ := Text.exists_run separator r.reverse
  have last := Text.head?_dropWhile_ne separator r.reverse
  generalize r.reverse.dropWhile (· == separator) = back at run last
  have split := List.takeWhile_append_dropWhile (p := (· != separator)) (l := back)
  have whole := List.all_eq_true.mp (List.all_takeWhile (p := (· != separator)) (l := back))
  have stop := List.head?_dropWhile_not (· != separator) back
  generalize back.takeWhile (· != separator) = segment at split whole
  generalize back.dropWhile (· != separator) = before at split stop
  subst split
  refine ⟨before.reverse, segment.reverse, trailing, ?_, ?_, ?_, ?_⟩
  · rw [← List.reverse_reverse r, run]
    simp
  · intro none
    obtain rfl := List.reverse_eq_nil_iff.mp none
    cases before with
    | nil =>
      -- nothing but the run is left of `r`
      obtain ⟨c, mem, other⟩ := more
      rw [← List.mem_reverse, run, List.append_nil, List.append_nil] at mem
      exact other (List.eq_of_mem_replicate mem)
    | cons c before => exact last (by simpa using stop)
  · intro mem
    simpa using whole separator (List.mem_reverse.mp mem)
  · cases before with
    | nil => exact .inl rfl
    | cons c before =>
      obtain rfl : c = separator := by simpa using stop
      exact .inr ⟨before.reverse, by simp⟩

/-- What one level up cuts off, and where a separator is kept. -/
theorem parent?_eq_some_iff {p q : Path} :
    p.parent? = some q ↔ ∃ up segment trailing,
      p = up ++ separator :: (segment ++ List.replicate trailing separator) ∧ segment ≠ [] ∧
        separator ∉ segment ∧
        q = if up = [] ∨ up.getLast? = some ':' then up ++ [separator] else up := by
  constructor
  · intro parent
    by_cases more : ∃ c ∈ p, c ≠ separator
    · obtain ⟨front, segment, trailing, rfl, nonempty, whole, start⟩ := exists_last_segment more
      rcases start with rfl | ⟨up, rfl⟩
      · rw [List.nil_append, parent?_of_no_separator whole] at parent
        cases parent
      · rw [List.append_assoc, List.singleton_append] at parent ⊢
        rw [parent?_of_segment nonempty whole] at parent
        exact ⟨up, segment, trailing, rfl, nonempty, whole, (Option.some.inj parent).symm⟩
    · have run : p = [] ++ List.replicate p.length separator := by
        apply List.eq_replicate_iff.mpr
        refine ⟨rfl, ?_⟩
        intro c mem
        by_contra other
        exact more ⟨c, mem, other⟩
      rw [run, parent?_of_no_separator List.not_mem_nil] at parent
      cases parent
  · rintro ⟨up, segment, trailing, rfl, nonempty, whole, rfl⟩
    exact parent?_of_segment nonempty whole trailing

theorem ne_nil_of_parent? {p q : Path} (h : p.parent? = some q) : q ≠ [] := by
  obtain ⟨up, segment, trailing, -, -, -, rfl⟩ := parent?_eq_some_iff.mp h
  split
  · simp
  · next ordinary => exact fun none => ordinary (.inl none)

theorem covers_of_parent? {p q : Path} (h : p.parent? = some q) : q.covers p = true := by
  obtain ⟨up, segment, trailing, rfl, some, -, rfl⟩ := parent?_eq_some_iff.mp h
  obtain ⟨c, r, rfl⟩ := List.exists_cons_of_ne_nil some
  apply covers_iff.mpr
  right
  split
  · exact ⟨c, r ++ List.replicate trailing separator, by simp, .inr (by simp)⟩
  · exact ⟨separator, c :: r ++ List.replicate trailing separator, rfl, .inl rfl⟩

/-! ## Going up -/

theorem covers_of_climb {p n q : Path} (h : climb p n = some q) :
    q.covers p = true ∧ q.covers n = true := by
  fun_induction climb p n with
  | case1 p covered =>
    obtain rfl := Option.some.inj h
    exact ⟨covers_refl _, covered⟩
  | case2 => simp at h
  | case3 p _ up parent ih =>
    obtain ⟨above, covered⟩ := ih h
    exact ⟨covers_trans above (covers_of_parent? parent), covered⟩

theorem covers_of_foldlM_climb {p q : Path} {ns : List Path} (h : ns.foldlM climb p = some q) :
    q.covers p = true ∧ ∀ n ∈ ns, q.covers n = true := by
  induction ns generalizing p with
  | nil =>
    obtain rfl : p = q := by simpa using h
    exact ⟨covers_refl _, by simp⟩
  | cons n ns ih =>
    rw [List.foldlM_cons, Option.bind_eq_bind, Option.bind_eq_some_iff] at h
    obtain ⟨up, climbed, rest⟩ := h
    obtain ⟨above, others⟩ := ih rest
    obtain ⟨first, second⟩ := covers_of_climb climbed
    refine ⟨covers_trans above first, ?_⟩
    intro m mem
    rcases List.mem_cons.mp mem with rfl | later
    · exact covers_trans above second
    · exact others m later

/-- A common parent is not empty and covers all paths. -/
theorem covers_of_common? {p : Path} {ns : List Path} (h : common? ns = some p) :
    p ≠ [] ∧ ∀ n ∈ ns, p.covers n = true := by
  cases ns with
  | nil => simp [common?] at h
  | cons first ns =>
    obtain ⟨found, given⟩ := Option.filter_eq_some_iff.mp h
    obtain ⟨above, others⟩ := covers_of_foldlM_climb found
    refine ⟨by simpa using given, ?_⟩
    intro n mem
    rcases List.mem_cons.mp mem with rfl | later
    · exact above
    · exact others n later

section Invariant

variable {holds : Path → Prop} (up : ∀ {p q : Path}, p.parent? = some q → holds p → holds q)

include up

theorem climb_preserves {p n q : Path} (h : climb p n = some q) (start : holds p) : holds q := by
  fun_induction climb p n with
  | case1 => exact Option.some.inj h ▸ start
  | case2 => simp at h
  | case3 p _ above parent ih => exact ih h (up parent start)

theorem foldlM_climb_preserves {p q : Path} {ns : List Path} (h : ns.foldlM climb p = some q)
    (start : holds p) : holds q := by
  induction ns generalizing p with
  | nil =>
    obtain rfl : p = q := by simpa using h
    exact start
  | cons n ns ih =>
    rw [List.foldlM_cons, Option.bind_eq_bind, Option.bind_eq_some_iff] at h
    obtain ⟨above, climbed, rest⟩ := h
    exact ih rest (climb_preserves up climbed start)

/-- What holds of all paths and is kept on the way up holds of their common parent. -/
theorem common?_preserves {p : Path} {ns : List Path} (h : common? ns = some p)
    (start : ∀ n ∈ ns, holds n) : holds p := by
  cases ns with
  | nil => simp [common?] at h
  | cons first ns =>
    obtain ⟨found, -⟩ := Option.filter_eq_some_iff.mp h
    exact foldlM_climb_preserves up found (start first List.mem_cons_self)

end Invariant

end KeyExport.Path
