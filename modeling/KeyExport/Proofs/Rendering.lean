import KeyExport.Rendering

/-!
# Renderings in a row

Renderings that are not refused say all their fragments one after the other. Where one is refused,
nothing after it is said.
-/

namespace KeyExport.Rendering

theorem flatten_flatMap {α β : Type} (as : List α) (f : α → List (List β)) :
    (as.flatMap f).flatten = as.flatMap fun a => (f a).flatten := by
  induction as with
  | nil => rfl
  | cons a as ih => rw [List.flatMap_cons, List.flatten_append, ih, List.flatMap_cons]

variable {α : Type} {f : α → Rendering}

/-- What cannot be refused adds no refusal. -/
theorem refusal_append {s : Rendering} (complete : s.refusal = none) (r : Rendering) :
    (r ++ s).refusal = r.refusal := by
  cases refusal : r.refusal with
  | none => rw [append_of_refusal_eq_none refusal, complete]
  | some e => rw [append_of_refusal_eq_some refusal, refusal]

theorem append_assoc (r s t : Rendering) : r ++ s ++ t = r ++ (s ++ t) := by
  obtain ⟨fs, first⟩ := r
  obtain ⟨gs, second⟩ := s
  cases first with
  | some e => rfl
  | none =>
    cases second with
    | some e => rfl
    | none => exact congrArg (Rendering.mk · t.refusal) (List.append_assoc fs gs t.fragments)

theorem concat_map_of_complete {as : List α} (complete : ∀ a ∈ as, (f a).refusal = none) :
    concat (as.map f) = { fragments := as.flatMap fun a => (f a).fragments } := by
  induction as with
  | nil => rfl
  | cons a as ih =>
    have others := ih fun b mem => complete b (List.mem_cons_of_mem _ mem)
    show f a ++ concat (as.map f) = _
    rw [append_of_refusal_eq_none (complete a List.mem_cons_self), others]
    rfl

theorem concat_map_of_refused {before after : List α} {a : α} {e : NameTooLong}
    (complete : ∀ b ∈ before, (f b).refusal = none) (refused : f a = refuse e) :
    concat ((before ++ a :: after).map f) =
      { fragments := before.flatMap fun b => (f b).fragments, refusal := some e } := by
  induction before with
  | nil =>
    show f a ++ concat (after.map f) = _
    rw [refused, append_of_refusal_eq_some rfl]
    rfl
  | cons b before ih =>
    have others := ih fun c mem => complete c (List.mem_cons_of_mem _ mem)
    show f b ++ concat ((before ++ a :: after).map f) = _
    rw [append_of_refusal_eq_none (complete b List.mem_cons_self), others]
    rfl

theorem complete_of_append {r s : Rendering} (h : (r ++ s).refusal = none) :
    r.refusal = none ∧ s.refusal = none := by
  cases first : r.refusal with
  | none => exact ⟨rfl, by rwa [append_of_refusal_eq_none first] at h⟩
  | some e => rw [append_of_refusal_eq_some first, first] at h; cases h

theorem complete_of_concat_map {as : List α} (h : (concat (as.map f)).refusal = none) :
    ∀ a ∈ as, (f a).refusal = none := by
  induction as with
  | nil => simp
  | cons a as ih =>
    obtain ⟨first, others⟩ := complete_of_append (r := f a) h
    exact List.forall_mem_cons.mpr ⟨first, ih others⟩

/-- What is refused is refused first at one of its parts. -/
theorem exists_refused_of_refusal_concat_map {as : List α} {e : NameTooLong}
    (h : (concat (as.map f)).refusal = some e) :
    ∃ before a after, as = before ++ a :: after ∧ (∀ b ∈ before, (f b).refusal = none) ∧
      (f a).refusal = some e := by
  induction as with
  | nil => simp [concat] at h
  | cons a as ih =>
    have h : (f a ++ concat (as.map f)).refusal = some e := h
    cases first : (f a).refusal with
    | some d =>
      rw [append_of_refusal_eq_some first] at h
      exact ⟨[], a, as, rfl, by simp, first.symm ▸ h⟩
    | none =>
      rw [append_of_refusal_eq_none first] at h
      obtain ⟨before, b, after, rfl, complete, refused⟩ := ih h
      refine ⟨a :: before, b, after, rfl, ?_, refused⟩
      intro c mem
      rcases List.mem_cons.mp mem with rfl | later
      · exact first
      · exact complete c later

end KeyExport.Rendering
