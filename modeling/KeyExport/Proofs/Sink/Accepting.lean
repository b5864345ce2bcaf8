import KeyExport.Proofs.Sink.Delivery
import KeyExport.Sink.Buffered
import KeyExport.Sink.Memory

/-!
# Sinks that take everything

Such a sink may take what it is offered in pieces of any size and may be interrupted at any time, but it
never fails, and its flushes succeed. Then everything that is handed over comes through. A buffer in
front of such a sink is another one, and emptying it always succeeds.
-/

namespace KeyExport.Sink

variable {σ : Type} [Sink σ] {holds : σ → Prop}

/-- What holds is kept by offers and flushes, and while it holds the sink takes something of each offer,
unless it is interrupted, and flushing succeeds. -/
structure Accepting (holds : σ → Prop) : Prop where
  keep : ∀ {s}, holds s → ∀ b, holds (write s b).2
  takes : ∀ {s}, holds s → ∀ {b}, b ≠ [] →
    (write s b).1 = .interrupted ∨ ∃ n, (write s b).1 = .accepted (n + 1)
  keep_flush : ∀ {s}, holds s → holds (flush s).2
  flushes : ∀ {s}, holds s → (flush s).1 = .ok ()

namespace Accepting

variable (accepting : Accepting holds)

include accepting

theorem offer {s : σ} (start : holds s) {b : Bytes} (some : b ≠ []) :
    ∃ n, (offer s b).1 = .ok (n + 1) := by
  fun_induction Sink.offer s b with
  | case1 s n t e =>
    have answer := accepting.takes start some
    rw [e] at answer
    rcases answer with interrupted | ⟨m, taken⟩
    · cases interrupted
    · obtain rfl := Reply.accepted.inj taken
      exact ⟨m, rfl⟩
  | case2 s f t e =>
    have answer := accepting.takes start some
    rw [e] at answer
    rcases answer with interrupted | ⟨m, taken⟩
    · cases interrupted
    · cases taken
  -- after an interruption the same bytes are offered again
  | case3 s t e ih => exact ih ((congrArg (holds ·.2) e).mp (accepting.keep start b))

theorem stop_pour {s : σ} (start : holds s) (b : Bytes) : (pour s b).stop = none := by
  fun_induction pour s b with
  | case1 => rfl
  | case2 s b some f t e =>
    obtain ⟨n, taken⟩ := accepting.offer start some
    rw [e] at taken
    cases taken
  | case3 s b some t e =>
    obtain ⟨n, taken⟩ := accepting.offer start some
    rw [e] at taken
    cases taken
  | case4 s b _ n t e ih =>
    exact ih ((congrArg (holds ·.2) e).mp (offer_preserves accepting.keep start b))

theorem writeAll {s : σ} (start : holds s) (b : Bytes) : ∃ n, (writeAll s b).1 = .ok n := by
  have through := accepting.stop_pour start b
  unfold Sink.writeAll
  split
  · exact ⟨_, rfl⟩
  · next e =>
    rw [e] at through
    cases through

theorem writeFragments {s : σ} (start : holds s) (n : Nat) (fs : List Bytes) :
    ∃ m, (writeFragments s n fs).1 = .ok m := by
  induction fs generalizing s n with
  | nil => exact ⟨n, rfl⟩
  | cons f fs ih =>
    obtain ⟨k, through⟩ := accepting.writeAll start f
    have kept := writeAll_preserves accepting.keep start f
    unfold Sink.writeFragments
    split
    · next k t e => exact ih ((congrArg (holds ·.2) e).mp kept) (n + k)
    · next e =>
      rw [e] at through
      cases through

/-- All of a rendering comes through, and only the rendering itself decides how that ends. -/
theorem writeTo {s : σ} (start : holds s) (r : Rendering) :
    (r.writeTo s).1 = r.outcome ∧ received (r.writeTo s).2 = received s ++ r.bytes := by
  have through : ∀ f, (r.writeTo s).1 ≠ .error (.sink f) := by
    obtain ⟨n, all⟩ := accepting.writeFragments start 0 r.fragments
    intro f
    unfold Rendering.writeTo
    split
    · next e =>
      rw [e] at all
      cases all
    · cases r.refusal <;> simp
  obtain ⟨sent, delivered⟩ := r.delivered_writeTo s
  obtain rfl := delivered.complete_iff.mp through
  exact ⟨Rendering.result_writeTo through, delivered.received⟩

/-! ## Behind a buffer -/

theorem drain {w : Buffered σ} (start : holds w.sink) :
    w.drain.1 = .ok () ∧ holds w.drain.2.sink := by
  have through := accepting.stop_pour start w.pending
  have kept := pour_preserves accepting.keep start w.pending
  unfold Buffered.drain
  split
  · next e =>
    rw [e] at kept
    exact ⟨rfl, kept⟩
  · next e =>
    rw [e] at through
    cases through

theorem keep_put {w : Buffered σ} (start : holds w.sink) (b : Bytes) : holds (w.put b).2.sink := by
  have kept := offer_preserves accepting.keep start b
  unfold Buffered.put
  split
  · exact start
  · split
    · next e => exact (congrArg (holds ·.2) e).mp kept
    · next e => exact (congrArg (holds ·.2) e).mp kept

theorem put {w : Buffered σ} (start : holds w.sink) {b : Bytes} (some : b ≠ []) :
    ∃ n, (w.put b).1 = .accepted (n + 1) := by
  unfold Buffered.put
  split
  · obtain ⟨n, length⟩ := Nat.exists_eq_add_one_of_ne_zero (mt List.length_eq_zero_iff.mp some)
    exact ⟨n, congrArg Reply.accepted length⟩
  · obtain ⟨n, taken⟩ := accepting.offer start some
    split
    · next e =>
      rw [e] at taken
      obtain rfl := Except.ok.inj taken
      exact ⟨n, rfl⟩
    · next e =>
      rw [e] at taken
      cases taken

/-- What is put aside is accepted, be there a place for it at once or after the buffer is emptied. -/
theorem write {w : Buffered σ} (start : holds w.sink) (b : Bytes) :
    holds (w.write b).2.sink ∧ (b ≠ [] → ∃ n, (w.write b).1 = .accepted (n + 1)) := by
  obtain ⟨drained, kept⟩ := accepting.drain start
  unfold Buffered.write
  split
  · exact ⟨accepting.keep_put start b, accepting.put start⟩
  · split
    · next w' e =>
      rw [e] at kept
      exact ⟨accepting.keep_put kept b, accepting.put kept⟩
    · next e =>
      rw [e] at drained
      cases drained

theorem flush {w : Buffered σ} (start : holds w.sink) :
    w.flush.1 = .ok () ∧ holds w.flush.2.sink := by
  obtain ⟨drained, kept⟩ := accepting.drain start
  unfold Buffered.flush
  split
  · next w' e =>
    rw [e] at kept
    exact ⟨accepting.flushes kept, accepting.keep_flush kept⟩
  · next e =>
    rw [e] at drained
    cases drained

theorem buffered : Accepting fun w : Buffered σ => holds w.sink :=
  ⟨fun start b => (accepting.write start b).1, fun start _ some => .inr ((accepting.write start _).2 some),
    fun start => (accepting.flush start).2, fun start => (accepting.flush start).1⟩

theorem received_release {w : Buffered σ} (start : holds w.sink) :
    received w.release = w.received := by
  have empty := Buffered.pending_drain (accepting.drain start).1
  rw [← w.received_drain, Buffered.received, empty, List.append_nil]
  rfl

theorem finish {w : Buffered σ} (start : holds w.sink) :
    w.finish.1 = .ok () ∧ received w.finish.2 = w.received := by
  have all := accepting.received_release start
  have drained := (accepting.drain start).1
  unfold Buffered.release at all
  unfold Buffered.finish
  split
  · next e =>
    rw [e] at all
    exact ⟨rfl, all⟩
  · next e =>
    rw [e] at drained
    cases drained

end Accepting

end KeyExport.Sink

namespace KeyExport.Memory

theorem accepting : Sink.Accepting fun _ : Memory => True := by
  refine ⟨fun _ _ => trivial, ?_, fun _ => trivial, fun _ => rfl⟩
  intro m _ b some
  obtain ⟨n, length⟩ := Nat.exists_eq_add_one_of_ne_zero (mt List.length_eq_zero_iff.mp some)
  exact .inr ⟨n, congrArg Reply.accepted length⟩

/-- In memory everything comes through. -/
theorem writeTo_eq (r : Rendering) (m : Memory) :
    (r.writeTo m).1 = r.outcome ∧ (r.writeTo m).2.contents = m.contents ++ r.bytes :=
  accepting.writeTo trivial r

theorem writeTo_ok_iff {r : Rendering} {m : Memory} :
    (∃ n, (r.writeTo m).1 = .ok n) ↔ r.refusal = none := by
  simp only [(writeTo_eq r m).1, Rendering.outcome_eq_ok_iff, exists_and_left, exists_eq, and_true]

/-- In memory nothing goes wrong but a refusal. -/
theorem writeTo_error_iff {r : Rendering} {m : Memory} {e : ExportError} :
    (r.writeTo m).1 = .error e ↔ ∃ d, e = .nameTooLong d ∧ r.refusal = some d := by
  rw [(writeTo_eq r m).1]
  cases e with
  | nameTooLong d => simp [Rendering.outcome_eq_tooLong_iff]
  | sink f => simp [Rendering.outcome_ne_fault]

end KeyExport.Memory
