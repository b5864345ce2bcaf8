import KeyExport.Sink.Basic

/-!
# A buffer in front of a sink

Bytes wait in the buffer until it has to be emptied: when the next ones do not fit, at a flush, or at the
end. Bytes that would fill the whole buffer go past it, once it is empty. What an emptying could not
deliver stays in the buffer, so nothing is lost but bytes that were never taken.

A buffer is a sink itself. It has received what the sink behind it has, followed by what waits.
-/

namespace KeyExport

structure Buffered (σ : Type) where
  sink : σ
  pending : Bytes := []

namespace Buffered

variable {σ : Type} [Sink σ]

def capacity : Nat := 8192

def drain (w : Buffered σ) : Except Fault Unit × Buffered σ :=
  match Sink.pour w.sink w.pending with
  | ⟨s, rest, none⟩ => (.ok (), ⟨s, rest⟩)
  | ⟨s, rest, some stop⟩ => (.error (stop.fault "failed to write the buffered data"), ⟨s, rest⟩)

/-- Take bytes that fit, or pass them on. -/
def put (w : Buffered σ) (b : Bytes) : Reply × Buffered σ :=
  if b.fits (capacity - 1) then (.accepted b.length, { w with pending := w.pending ++ b })
  else
    match Sink.offer w.sink b with
    | (.ok n, s) => (.accepted n, { w with sink := s })
    | (.error f, s) => (.failed f, { w with sink := s })

def write (w : Buffered σ) (b : Bytes) : Reply × Buffered σ :=
  if b.fits (capacity - w.pending.length) then w.put b
  else
    match w.drain with
    | (.ok _, w) => w.put b
    | (.error f, w) => (.failed f, w)

def flush (w : Buffered σ) : Except Fault Unit × Buffered σ :=
  match w.drain with
  | (.ok _, w) => let (result, s) := Sink.flush w.sink; (result, { w with sink := s })
  | (.error f, w) => (.error f, w)

/-- Empty the buffer as far as the sink allows, and give the sink back. -/
def release (w : Buffered σ) : σ := w.drain.2.sink

/-- Empty the buffer and give the sink back. After a fault the rest is tried once more. -/
def finish (w : Buffered σ) : Except Fault Unit × σ :=
  match w.drain with
  | (.ok _, w) => (.ok (), w.sink)
  | (.error f, w) => (.error f, w.release)

def received (w : Buffered σ) : Bytes := Sink.received w.sink ++ w.pending

theorem received_drain (w : Buffered σ) : w.drain.2.received = w.received := by
  have kept := Sink.received_pour w.sink w.pending
  unfold drain
  split <;> simp_all [received]

theorem pending_drain {w : Buffered σ} (h : w.drain.1 = .ok ()) : w.drain.2.pending = [] := by
  have empty := Sink.rest_pour_eq_nil (s := w.sink) (b := w.pending)
  unfold drain at h ⊢
  split <;> simp_all

theorem final_drain {w : Buffered σ} {f : Fault} (h : w.drain.1 = .error f) : f.Final := by
  have final := fun stop (left : (Sink.pour w.sink w.pending).stop = some stop) =>
    Sink.final_pour left
  unfold drain at h
  split at h
  · cases h
  · next stop e =>
    rw [e] at final
    obtain rfl := Except.error.inj h
    exact final stop rfl _

theorem length_pending_drain_le (w : Buffered σ) : w.drain.2.pending.length ≤ w.pending.length := by
  have shorter := Sink.length_rest_pour_le w.sink w.pending
  unfold drain
  split <;> simp_all

/-- Bytes that do not fit behind those that wait are put only when none wait. -/
theorem received_put {w : Buffered σ} {b : Bytes} (h : w.pending = [] ∨ b.fits (capacity - 1)) :
    (w.put b).2.received = w.received ++ b.take (w.put b).1.taken := by
  unfold put
  by_cases fits : b.fits (capacity - 1)
  · simp [fits, Reply.taken, received]
  · have none : w.pending = [] := h.resolve_right fits
    have grown := Sink.received_offer w.sink b
    simp only [fits, Bool.false_eq_true, ↓reduceIte]
    split <;> simp_all [received, Reply.taken, Sink.taken]

theorem taken_put_le (w : Buffered σ) (b : Bytes) : (w.put b).1.taken ≤ b.length := by
  have bound := Sink.taken_offer_le w.sink b
  unfold put
  split
  · exact Nat.le_refl _
  · split <;> simp_all [Reply.taken, Sink.taken]

theorem put_ne_interrupted (w : Buffered σ) (b : Bytes) : (w.put b).1 ≠ .interrupted := by
  unfold put
  split
  · simp
  · split <;> simp

theorem final_put {w : Buffered σ} {b : Bytes} {f : Fault} (h : (w.put b).1 = .failed f) :
    f.Final := by
  unfold put at h
  split at h
  · cases h
  · split at h
    · cases h
    · next g s e =>
      obtain rfl := Reply.failed.inj h
      exact Sink.final_offer (congrArg Prod.fst e)

theorem received_write (w : Buffered σ) (b : Bytes) :
    (w.write b).2.received = w.received ++ b.take (w.write b).1.taken := by
  unfold write
  split
  · next fits =>
    refine received_put ?_
    by_cases none : w.pending.length = 0
    · exact .inl (List.length_eq_zero_iff.mp none)
    · rw [Bytes.fits_iff] at fits ⊢
      exact .inr (by omega)
  · have kept := received_drain w
    have empty := pending_drain (w := w)
    split
    · next w' e =>
      rw [e] at kept empty
      rw [received_put (.inl (empty rfl)), kept]
    · next f w' e =>
      rw [e] at kept
      simpa [Reply.taken] using kept

theorem taken_write_le (w : Buffered σ) (b : Bytes) : (w.write b).1.taken ≤ b.length := by
  unfold write
  split
  · exact taken_put_le w b
  · split
    · exact taken_put_le _ b
    · exact Nat.zero_le _

theorem write_ne_interrupted (w : Buffered σ) (b : Bytes) : (w.write b).1 ≠ .interrupted := by
  unfold write
  split
  · exact put_ne_interrupted w b
  · split
    · exact put_ne_interrupted _ b
    · simp

theorem final_write {w : Buffered σ} {b : Bytes} {f : Fault} (h : (w.write b).1 = .failed f) :
    f.Final := by
  unfold write at h
  split at h
  · exact final_put h
  · split at h
    · exact final_put h
    · next g w' e =>
      obtain rfl := Reply.failed.inj h
      exact final_drain (congrArg Prod.fst e)

theorem length_pending_put_le {w : Buffered σ} {b : Bytes} (room : w.pending.length ≤ capacity)
    (h : w.pending.length + b.length ≤ capacity ∨ capacity ≤ b.length) :
    (w.put b).2.pending.length ≤ capacity := by
  unfold put
  by_cases fits : b.fits (capacity - 1)
  · rw [Bytes.fits_iff] at fits
    have positive : 0 < capacity := by decide
    simp [fits]
    omega
  · simp only [fits, Bool.false_eq_true, ↓reduceIte]
    split <;> exact room

theorem length_pending_write_le {w : Buffered σ} (room : w.pending.length ≤ capacity) (b : Bytes) :
    (w.write b).2.pending.length ≤ capacity := by
  unfold write
  split
  · next fits =>
    rw [Bytes.fits_iff] at fits
    exact length_pending_put_le room (.inl (by omega))
  · have fewer := Nat.le_trans (length_pending_drain_le w) room
    have empty := pending_drain (w := w)
    split
    · next w' e =>
      rw [e] at fewer empty
      refine length_pending_put_le fewer ?_
      rw [empty rfl, List.length_nil, Nat.zero_add]
      exact Nat.le_total _ _
    · next f w' e => rwa [e] at fewer

theorem received_flush (w : Buffered σ) : w.flush.2.received = w.received := by
  have kept := received_drain w
  unfold flush
  split
  · next w' e =>
    rw [e] at kept
    simpa [received, Sink.received_flush] using kept
  · next f w' e => rwa [e] at kept

instance : Sink (Buffered σ) where
  write := write
  flush := flush
  received := received
  patience _ := 0
  taken_write_le := taken_write_le
  received_write := received_write
  received_flush := received_flush
  patience_write_lt w b h := absurd h (write_ne_interrupted w b)
  final_write _ _ _ := final_write

end Buffered

end KeyExport
