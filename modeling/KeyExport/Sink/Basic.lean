import KeyExport.Text.Bytes

/-!
# Sinks

A sink takes a prefix of what it is offered, or is interrupted, or fails. Being interrupted is not an
answer: the offer is repeated, and `patience` bounds how often in a row that can happen. `pour` offers
bytes until all are taken and says what is left when they are not. A failure may be of any other kind;
a flush is not repeated, so it may fail with any kind at all.

Whatever a sink does, what it has received grows by what it took: `received_pour`.
-/

namespace KeyExport

/-- The kind of a fault, by its name. Sinks have kinds of their own beside those named here. -/
structure Fault.Kind where
  name : String
deriving DecidableEq, Repr

namespace Fault.Kind

def interrupted : Fault.Kind := ⟨"Interrupted"⟩

def writeZero : Fault.Kind := ⟨"WriteZero"⟩

def notFound : Fault.Kind := ⟨"NotFound"⟩

def isADirectory : Fault.Kind := ⟨"IsADirectory"⟩

def notADirectory : Fault.Kind := ⟨"NotADirectory"⟩

def invalidFilename : Fault.Kind := ⟨"InvalidFilename"⟩

def invalidInput : Fault.Kind := ⟨"InvalidInput"⟩

end Fault.Kind

structure Fault where
  kind : Fault.Kind
  message : String
deriving DecidableEq, Repr

/-- A fault that ends an offer: after one of being interrupted it would be repeated. -/
abbrev Fault.Final (f : Fault) : Prop := f.kind ≠ .interrupted

inductive Reply where
  | accepted (n : Nat)
  | interrupted
  | failed (f : Fault)
deriving DecidableEq, Repr

def Reply.taken : Reply → Nat
  | accepted n => n
  | _ => 0

class Sink (σ : Type) where
  /-- A single offer. -/
  write : σ → Bytes → Reply × σ
  flush : σ → Except Fault Unit × σ
  received : σ → Bytes
  /-- A bound on the interruptions before the next answer. -/
  patience : σ → Nat
  taken_write_le : ∀ s b, (write s b).1.taken ≤ b.length
  received_write : ∀ s b, received (write s b).2 = received s ++ b.take (write s b).1.taken
  received_flush : ∀ s, received (flush s).2 = received s
  patience_write_lt : ∀ s b, (write s b).1 = .interrupted → patience (write s b).2 < patience s
  final_write : ∀ s b f, (write s b).1 = .failed f → f.Final

namespace Sink

variable {σ : Type} [Sink σ]

/-- An offer, repeated until it is answered. -/
def offer (s : σ) (b : Bytes) : Except Fault Nat × σ :=
  match _h : write s b with
  | (.accepted n, t) => (.ok n, t)
  | (.failed f, t) => (.error f, t)
  | (.interrupted, t) => offer t b
termination_by patience s
decreasing_by
  have := patience_write_lt s b
  simp only [_h] at this
  exact this trivial

/-- The bytes that an answer took. -/
def taken : Except Fault Nat → Nat
  | .ok n => n
  | .error _ => 0

theorem taken_offer_le (s : σ) (b : Bytes) : taken (offer s b).1 ≤ b.length := by
  fun_induction offer s b with
  | case1 s n t h => simpa [h, Reply.taken, taken] using taken_write_le s b
  | case2 => exact Nat.zero_le _
  | case3 s t h ih => exact ih

theorem received_offer (s : σ) (b : Bytes) :
    received (offer s b).2 = received s ++ b.take (taken (offer s b).1) := by
  fun_induction offer s b with
  | case1 s n t h => simpa [h, Reply.taken, taken] using received_write s b
  | case2 s f t h => simpa [h, Reply.taken, taken] using received_write s b
  | case3 s t h ih =>
    have same : received t = received s := by simpa [h, Reply.taken] using received_write s b
    rw [ih, same]

theorem final_offer {s : σ} {b : Bytes} {f : Fault} (h : (offer s b).1 = .error f) : f.Final := by
  fun_induction offer s b with
  | case1 => cases h
  | case2 s g t e =>
    obtain rfl := Except.error.inj h
    exact final_write s b g (congrArg Prod.fst e)
  | case3 s t e ih => exact ih h

/-- Why bytes are left: the sink took none, or failed. -/
inductive Stop where
  | refused
  | failed (f : Fault)
deriving DecidableEq, Repr

def Stop.fault (refusal : String) : Stop → Fault
  | refused => ⟨.writeZero, refusal⟩
  | failed f => f

structure Poured (σ : Type) where
  sink : σ
  rest : Bytes
  stop : Option Stop

def pour (s : σ) (b : Bytes) : Poured σ :=
  if _h : b = [] then ⟨s, [], none⟩
  else
    match offer s b with
    | (.error f, t) => ⟨t, b, some (.failed f)⟩
    | (.ok 0, t) => ⟨t, b, some .refused⟩
    | (.ok (n + 1), t) => pour t (b.drop (n + 1))
termination_by b.length
decreasing_by
  have := List.length_pos_iff.mpr _h
  simp only [List.length_drop]
  omega

theorem received_pour (s : σ) (b : Bytes) :
    received (pour s b).sink ++ (pour s b).rest = received s ++ b := by
  fun_induction pour s b with
  | case1 => simp
  | case2 s b _ f t h => simpa [h, taken] using received_offer s b
  | case3 s b _ t h => simpa [h, taken] using received_offer s b
  | case4 s b _ n t h ih =>
    have grown : received t = received s ++ b.take (n + 1) := by
      simpa [h, taken] using received_offer s b
    rw [ih, grown, List.append_assoc, List.take_append_drop]

theorem length_rest_pour_le (s : σ) (b : Bytes) : (pour s b).rest.length ≤ b.length := by
  fun_induction pour s b with
  | case1 => simp
  | case2 => exact Nat.le_refl _
  | case3 => exact Nat.le_refl _
  | case4 s b _ n t h ih => exact Nat.le_trans ih (by simp)

theorem rest_pour_eq_nil {s : σ} {b : Bytes} (h : (pour s b).stop = none) : (pour s b).rest = [] := by
  fun_induction pour s b with
  | case1 => rfl
  | case2 => simp at h
  | case3 => simp at h
  | case4 s b _ n t _ ih => exact ih h

theorem final_pour {s : σ} {b : Bytes} {stop : Stop} (h : (pour s b).stop = some stop)
    (refusal : String) : (stop.fault refusal).Final := by
  fun_induction pour s b with
  | case1 => cases h
  | case2 s b _ f t e =>
    obtain rfl := Option.some.inj h
    exact final_offer (congrArg Prod.fst e)
  | case3 =>
    obtain rfl := Option.some.inj h
    show Fault.Kind.writeZero ≠ .interrupted
    decide
  | case4 s b _ n t _ ih => exact ih h

/-- Hand over all bytes; how many there were. -/
def writeAll (s : σ) (b : Bytes) : Except Fault Nat × σ :=
  match pour s b with
  | ⟨t, rest, none⟩ => (.ok (b.length - rest.length), t)
  | ⟨t, _, some stop⟩ => (.error (stop.fault "failed to write whole buffer"), t)

/-- Hand over one fragment after the other, `n` bytes having gone before. -/
def writeFragments (s : σ) (n : Nat) : List Bytes → Except Fault Nat × σ
  | [] => (.ok n, s)
  | f :: fs =>
    match writeAll s f with
    | (.ok k, t) => writeFragments t (n + k) fs
    | (.error e, t) => (.error e, t)

end Sink

end KeyExport
