/-!
# What follows a given front

The front is a list of its own, or a run of the same element, however long.
-/

namespace KeyExport.Text

def dropFront? {α : Type} [DecidableEq α] : List α → List α → Option (List α)
  | [], xs => some xs
  | _ :: _, [] => none
  | f :: fs, x :: xs => if f = x then dropFront? fs xs else none

variable {α : Type} [DecidableEq α]

@[simp] theorem dropFront?_eq_some_iff {front xs rest : List α} :
    dropFront? front xs = some rest ↔ xs = front ++ rest := by
  induction front generalizing xs with
  | nil => simp [dropFront?]
  | cons f fs ih =>
    cases xs with
    | nil => simp [dropFront?]
    | cons x xs => by_cases h : f = x <;> simp [dropFront?, h, ih, eq_comm]

theorem dropFront?_append (front rest : List α) : dropFront? front (front ++ rest) = some rest :=
  dropFront?_eq_some_iff.mpr rfl

theorem dropFront?_eq_none_iff {front xs : List α} : dropFront? front xs = none ↔ ¬front <+: xs := by
  rw [Option.eq_none_iff_forall_ne_some]
  simp only [ne_eq, dropFront?_eq_some_iff]
  constructor
  · rintro h ⟨rest, rfl⟩
    exact h rest rfl
  · rintro h rest rfl
    exact h ⟨rest, rfl⟩

section Run

variable {β : Type} [BEq β] [LawfulBEq β] (b : β)

theorem exists_run (xs : List β) : ∃ n, xs = List.replicate n b ++ xs.dropWhile (· == b) := by
  have run : xs.takeWhile (· == b) = List.replicate (xs.takeWhile (· == b)).length b := by
    apply List.eq_replicate_iff.mpr
    refine ⟨rfl, ?_⟩
    intro x mem
    have all := List.all_eq_true.mp (List.all_takeWhile (p := (· == b)) (l := xs))
    simpa using all x mem
  refine ⟨(xs.takeWhile (· == b)).length, ?_⟩
  rw [← run, List.takeWhile_append_dropWhile]

theorem head?_dropWhile_ne (xs : List β) : (xs.dropWhile (· == b)).head? ≠ some b := by
  intro head
  have stop := List.head?_dropWhile_not (· == b) xs
  rw [head] at stop
  simp at stop

variable {b}

theorem dropWhile_run (n : Nat) {rest : List β} (head : rest.head? ≠ some b) :
    (List.replicate n b ++ rest).dropWhile (· == b) = rest := by
  rw [List.dropWhile_append_of_pos (by simp)]
  cases rest with
  | nil => rfl
  | cons x xs => exact List.dropWhile_cons_of_neg (by simpa using head)

end Run

end KeyExport.Text
