import KeyExport.Sink.Basic

/-!
# A sink with limited room

It takes only so many bytes in all, only so many at a time, and may be interrupted before it answers.
When there is no room left it refuses, with a fault or by taking nothing; after a refusal that does not
last, it takes everything.
-/

namespace KeyExport

/-- How a bounded sink behaves; the `i`-th answer has a largest piece and interruptions before it. -/
structure Terms where
  piece : Nat → Option Nat := fun _ => none
  interruptions : Nat → Nat := fun _ => 0
  refusal : Option Fault := none
  final : ∀ f ∈ refusal, f.Final := by decide
  lasting : Bool := true
  flushFault : Option Fault := none

structure Bounded where
  terms : Terms
  /-- The bytes it still takes; `none` when there is no limit. -/
  room : Option Nat := none
  answered : Nat := 0
  interrupted : Nat := 0
  pieces : List Bytes := []

namespace Bounded

def contents (s : Bounded) : Bytes := s.pieces.reverse.flatten

/-- The front of `b` that the next answer takes, where there is room. -/
def portion (s : Bounded) (b : Bytes) : Bytes :=
  let piece := (s.terms.piece s.answered).elim b b.take
  s.room.elim piece piece.take

def refusal (s : Bounded) : Reply :=
  match s.terms.refusal with
  | some f => .failed f
  | none => .accepted 0

def write (s : Bounded) (b : Bytes) : Reply × Bounded :=
  if s.interrupted < s.terms.interruptions s.answered then
    (.interrupted, { s with interrupted := s.interrupted + 1 })
  else if s.room = some 0 then
    (s.refusal,
      { s with
        answered := s.answered + 1
        interrupted := 0
        room := if s.terms.lasting then some 0 else none })
  else
    let taken := s.portion b
    (.accepted taken.length,
      { s with
        answered := s.answered + 1
        interrupted := 0
        room := s.room.map (· - taken.length)
        pieces := taken :: s.pieces })

def flush (s : Bounded) : Except Fault Unit × Bounded :=
  (s.terms.flushFault.elim (.ok ()) .error, s)

def patience (s : Bounded) : Nat := s.terms.interruptions s.answered - s.interrupted

theorem portion_prefix (s : Bounded) (b : Bytes) : s.portion b <+: b := by
  unfold portion
  have piece : (s.terms.piece s.answered).elim b b.take <+: b := by
    cases s.terms.piece s.answered with
    | none => exact List.prefix_rfl
    | some n => exact List.take_prefix n b
  cases s.room with
  | none => exact piece
  | some n => exact (List.take_prefix n _).trans piece

theorem taken_refusal (s : Bounded) : s.refusal.taken = 0 := by
  unfold refusal
  split <;> rfl

theorem final_of_refusal {s : Bounded} {f : Fault} (h : s.refusal = .failed f) : f.Final := by
  unfold refusal at h
  split at h
  · next g given =>
    obtain rfl := Reply.failed.inj h
    exact s.terms.final g given
  · cases h

theorem contents_write (s : Bounded) (b : Bytes) :
    (s.write b).2.contents = s.contents ++ b.take (s.write b).1.taken := by
  unfold write
  split
  · simp [Reply.taken, contents]
  · split
    · simp [taken_refusal, contents]
    · have front := List.prefix_iff_eq_take.mp (s.portion_prefix b)
      simp [Reply.taken, contents, ← front]

instance : Sink Bounded where
  write := write
  flush := flush
  received := contents
  patience := patience
  taken_write_le s b := by
    unfold write
    split
    · exact Nat.zero_le _
    · split
      · simp [taken_refusal]
      · exact (s.portion_prefix b).length_le
  received_write := contents_write
  received_flush _ := rfl
  patience_write_lt s b h := by
    by_cases waits : s.interrupted < s.terms.interruptions s.answered
    · simp only [write, waits, ↓reduceIte, patience]
      omega
    · simp only [write, waits, ↓reduceIte] at h
      split at h
      · simp only [refusal] at h
        split at h <;> simp at h
      · simp at h
  final_write s b f h := by
    unfold write at h
    split at h
    · cases h
    · split at h
      · exact final_of_refusal h
      · cases h

end Bounded

end KeyExport
