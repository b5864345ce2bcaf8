import KeyExport.Rendering

/-!
# Delivery

Whatever a sink does, of all that is handed over a front comes through, and the result tells whether it
is everything. Nothing comes twice and nothing comes out of order, at whichever fragment and wherever in
it a sink stops.
-/

namespace KeyExport.Sink

variable {σ : Type} [Sink σ]

/-- Between `s` and `t` the front `sent` of `whole` came through, all of it just when `complete`. -/
structure Delivered (s t : σ) (whole : Bytes) (complete : Prop) (sent : Bytes) : Prop where
  received : received t = received s ++ sent
  front : sent <+: whole
  complete_iff : complete ↔ sent = whole

theorem Delivered.nothing (s : σ) {complete : Prop} (h : complete) : Delivered s s [] complete [] :=
  ⟨by simp, List.prefix_rfl, by simp [h]⟩

/-- After a part that came through as a whole the next one follows. -/
theorem Delivered.append {s t u : σ} {whole other sent : Bytes} {first second : Prop}
    (through : Delivered s t whole first whole) (next : Delivered t u other second sent) :
    Delivered s u (whole ++ other) second (whole ++ sent) := by
  refine ⟨?_, ?_, ?_⟩
  · rw [next.received, through.received, List.append_assoc]
  · exact (List.prefix_append_right_inj whole).mpr next.front
  · rw [next.complete_iff, List.append_right_inj]

/-- What stops inside a part stops before the next one. -/
theorem Delivered.stopped {s t : σ} {whole sent : Bytes} {complete : Prop}
    (part : Delivered s t whole complete sent) (stop : ¬complete) (other : Bytes) {later : Prop}
    (never : ¬later) : Delivered s t (whole ++ other) later sent := by
  have less : sent ≠ whole := fun all => stop (part.complete_iff.mpr all)
  refine ⟨part.received, part.front.trans (List.prefix_append _ _), ?_⟩
  refine ⟨fun h => absurd h never, ?_⟩
  intro all
  have longer := part.front.length_le
  have same : whole = sent := by
    apply part.front.eq_of_length_le _ |>.symm
    rw [all, List.length_append]
    omega
  exact absurd same.symm less

theorem stop_pour_eq_none_iff (s : σ) (b : Bytes) :
    (pour s b).stop = none ↔ (pour s b).rest = [] := by
  refine ⟨rest_pour_eq_nil, ?_⟩
  fun_induction pour s b with
  | case1 => exact fun _ => rfl
  | case2 s b some => exact fun none => absurd none some
  | case3 s b some => exact fun none => absurd none some
  | case4 s b _ n t _ ih => exact ih

theorem delivered_pour (s : σ) (b : Bytes) :
    ∃ sent, Delivered s (pour s b).sink b ((pour s b).stop = none) sent ∧
      b = sent ++ (pour s b).rest := by
  have kept := received_pour s b
  have shorter := length_rest_pour_le s b
  have complete := stop_pour_eq_none_iff s b
  generalize pour s b = poured at *
  obtain ⟨sent, whole⟩ : poured.rest <:+ b :=
    List.suffix_of_suffix_length_le ⟨_, kept⟩ (List.suffix_append _ _) shorter
  subst whole
  refine ⟨sent, ⟨?_, List.prefix_append _ _, ?_⟩, rfl⟩
  · rw [← List.append_assoc] at kept
    exact List.append_cancel_right kept
  · rw [complete]
    simp

theorem delivered_writeAll (s : σ) (b : Bytes) :
    ∃ sent, Delivered s (writeAll s b).2 b (∃ n, (writeAll s b).1 = .ok n) sent := by
  obtain ⟨sent, through, -⟩ := delivered_pour s b
  refine ⟨sent, ?_⟩
  unfold writeAll
  split
  · next t rest e =>
    rw [e] at through
    simpa using through
  · next t rest stop e =>
    rw [e] at through
    simpa using through

theorem count_writeAll {s : σ} {b : Bytes} {n : Nat} (h : (writeAll s b).1 = .ok n) :
    n = b.length := by
  unfold writeAll at h
  split at h
  · next t rest e =>
    have empty := rest_pour_eq_nil (s := s) (b := b) (by rw [e])
    obtain rfl : rest = [] := by simpa [e] using empty
    simpa using h.symm
  · simp at h

theorem delivered_writeFragments (s : σ) (n : Nat) (fs : List Bytes) :
    ∃ sent, Delivered s (writeFragments s n fs).2 fs.flatten
      (∃ m, (writeFragments s n fs).1 = .ok m) sent := by
  induction fs generalizing s n with
  | nil => exact ⟨[], Delivered.nothing s ⟨n, rfl⟩⟩
  | cons f fs ih =>
    obtain ⟨first, through⟩ := delivered_writeAll s f
    unfold writeFragments
    split
    · next k t e =>
      rw [e] at through
      obtain rfl := through.complete_iff.mp ⟨k, rfl⟩
      obtain ⟨later, next⟩ := ih t (n + k)
      exact ⟨first ++ later, through.append next⟩
    · next fault t e =>
      rw [e] at through
      exact ⟨first, through.stopped (by simp) fs.flatten (by simp)⟩

theorem count_writeFragments {s : σ} {n m : Nat} {fs : List Bytes}
    (h : (writeFragments s n fs).1 = .ok m) : m = n + fs.flatten.length := by
  induction fs generalizing s n with
  | nil => simpa [writeFragments] using h.symm
  | cons f fs ih =>
    unfold writeFragments at h
    split at h
    · next k t e =>
      have first := count_writeAll (s := s) (b := f) (by rw [e])
      rw [ih h, first, List.flatten_cons, List.length_append, Nat.add_assoc]
    · simp at h

/-! ## What single offers keep -/

section Invariant

variable {holds : σ → Prop} (keep : ∀ {s : σ}, holds s → ∀ b, holds (write s b).2)

include keep

theorem offer_preserves {s : σ} (start : holds s) (b : Bytes) : holds (offer s b).2 := by
  fun_induction offer s b with
  | case1 s n t e => exact (congrArg (holds ·.2) e).mp (keep start b)
  | case2 s f t e => exact (congrArg (holds ·.2) e).mp (keep start b)
  | case3 s t e ih => exact ih ((congrArg (holds ·.2) e).mp (keep start b))

theorem pour_preserves {s : σ} (start : holds s) (b : Bytes) : holds (pour s b).sink := by
  fun_induction pour s b with
  | case1 => exact start
  | case2 s b _ f t e => exact (congrArg (holds ·.2) e).mp (offer_preserves keep start b)
  | case3 s b _ t e => exact (congrArg (holds ·.2) e).mp (offer_preserves keep start b)
  | case4 s b _ n t e ih => exact ih ((congrArg (holds ·.2) e).mp (offer_preserves keep start b))

theorem writeAll_preserves {s : σ} (start : holds s) (b : Bytes) : holds (writeAll s b).2 := by
  have kept := pour_preserves keep start b
  unfold writeAll
  split
  · next e => exact (congrArg (fun p => holds p.sink) e).mp kept
  · next e => exact (congrArg (fun p => holds p.sink) e).mp kept

theorem writeFragments_preserves {s : σ} (start : holds s) (n : Nat) (fs : List Bytes) :
    holds (writeFragments s n fs).2 := by
  induction fs generalizing s n with
  | nil => exact start
  | cons f fs ih =>
    have kept := writeAll_preserves keep start f
    unfold writeFragments
    split
    · next k t e => exact ih ((congrArg (holds ·.2) e).mp kept) (n + k)
    · next fault t e => exact (congrArg (holds ·.2) e).mp kept

end Invariant

end KeyExport.Sink

namespace KeyExport.Rendering

variable {σ : Type} [Sink σ]

theorem writeTo_preserves (holds : σ → Prop)
    (keep : ∀ {s : σ}, holds s → ∀ b, holds (Sink.write s b).2) {s : σ} (start : holds s)
    (r : Rendering) : holds (r.writeTo s).2 := by
  have kept := Sink.writeFragments_preserves keep start 0 r.fragments
  unfold writeTo
  split
  · next e => exact (congrArg (holds ·.2) e).mp kept
  · next e => exact (congrArg (holds ·.2) e).mp kept

/-- How handing over ends for a sink that takes everything. -/
def outcome (r : Rendering) : Except ExportError Nat :=
  r.refusal.elim (.ok r.bytes.length) fun e => .error (.nameTooLong e)

theorem outcome_eq_ok_iff {r : Rendering} {n : Nat} :
    r.outcome = .ok n ↔ r.refusal = none ∧ n = r.bytes.length := by
  unfold outcome
  cases r.refusal with
  | none => simp [eq_comm]
  | some e => simp

theorem outcome_eq_tooLong_iff {r : Rendering} {e : NameTooLong} :
    r.outcome = .error (.nameTooLong e) ↔ r.refusal = some e := by
  unfold outcome
  cases r.refusal with
  | none => simp
  | some d => simp

theorem outcome_ne_fault (r : Rendering) (f : Fault) : r.outcome ≠ .error (.sink f) := by
  unfold outcome
  cases r.refusal with
  | none => simp
  | some e => simp

/-- A front of the rendering comes through, and all of it unless the sink is at fault. -/
theorem delivered_writeTo (r : Rendering) (s : σ) :
    ∃ sent, Sink.Delivered s (r.writeTo s).2 r.bytes
      (∀ f, (r.writeTo s).1 ≠ .error (.sink f)) sent := by
  obtain ⟨sent, through⟩ := Sink.delivered_writeFragments s 0 r.fragments
  refine ⟨sent, ?_⟩
  unfold writeTo
  split
  · next fault t e =>
    rw [e] at through
    simpa [bytes] using through
  · next n t e =>
    rw [e] at through
    cases r.refusal <;> simpa [bytes] using through

theorem result_writeTo {r : Rendering} {s : σ} (through : ∀ f, (r.writeTo s).1 ≠ .error (.sink f)) :
    (r.writeTo s).1 = r.outcome := by
  unfold writeTo at through ⊢
  split
  · next fault t e =>
    rw [e] at through
    exact absurd rfl (through fault)
  · next n t e =>
    have count : n = 0 + r.fragments.flatten.length := Sink.count_writeFragments (by rw [e])
    rw [Nat.zero_add] at count
    rw [outcome, count]
    rfl

/-- Only a refusal of the rendering itself is reported as one. -/
theorem writeTo_ne_tooLong {r : Rendering} (complete : r.refusal = none) (s : σ) (e : NameTooLong) :
    (r.writeTo s).1 ≠ .error (.nameTooLong e) := by
  unfold writeTo
  split
  · simp
  · simp [complete]

end KeyExport.Rendering
