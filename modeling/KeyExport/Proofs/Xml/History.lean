import KeyExport.Proofs.Rendering
import KeyExport.Proofs.Sink.Delivery
import KeyExport.Proofs.Xml.Naming
import KeyExport.Xml.Writer
import Mathlib.Data.List.Forall2

/-!
# The history of a writer

Each call adds a front of its rendering to what the sink has received and what waits in the buffer, and
nothing else ever changes this sequence of bytes: no call takes back, repeats or overtakes what an
earlier one added, whether it succeeds or fails. So after any calls on any sink the bytes are one part
per call, in the order of the calls.
-/

namespace KeyExport.Xml

open Bytes (ofString)

/-! ## What is written of a refused rendering -/

/-- A refused document ends in front of the element of the first key that is refused. -/
theorem document_refused {ks : KeySet} {o : Options} {e : NameTooLong}
    (h : (document ks o).refusal = some e) :
    ∃ before k after, ks.keys = before ++ k :: after ∧
      (∀ b ∈ before, ∃ naming, Naming.ofKey b (documentParent ks o) o = .ok naming) ∧
      Naming.ofKey k (documentParent ks o) o = .error e ∧
      (document ks o).bytes = (opening ks o).flatten ++
        (before.flatMap fun b => (key b (documentParent ks o) o).fragments).flatten := by
  obtain ⟨before, k, after, whole, complete, last⟩ := exists_refused_key h
  refine ⟨before, k, after, whole, fun b mem => key_complete (complete b mem), (key_refused last).2, ?_⟩
  rw [document_eq_of_refused whole complete last, Rendering.bytes, List.flatten_append]

namespace Writer

/-! ## Calls -/

inductive Call where
  | key (k : Key) (parent : Option Parent)
  | keySet (ks : KeySet)

namespace Call

def rendering (o : Options) : Call → Rendering
  | key k parent => Xml.key k parent o
  | keySet ks => document ks o

/-- What a call with the given result contributes: all of its rendering when it succeeds, nothing for a
refused key, and of a refused document all that precedes the key at fault. -/
structure Contributes (o : Options) (c : Call) (result : Except ExportError Nat) (part : Bytes) :
    Prop where
  front : part <+: (c.rendering o).bytes
  ok : ∀ n, result = .ok n →
    (c.rendering o).refusal = none ∧ part = (c.rendering o).bytes ∧ n = part.length
  refusedKey : ∀ k parent e, c = .key k parent → result = .error (.nameTooLong e) → part = []
  refusedDocument : ∀ ks e, c = .keySet ks → result = .error (.nameTooLong e) →
    ∃ before k after, ks.keys = before ++ k :: after ∧
      (∀ b ∈ before, ∃ naming, Naming.ofKey b (documentParent ks o) o = .ok naming) ∧
      Naming.ofKey k (documentParent ks o) o = .error e ∧
      part = (opening ks o).flatten ++
        (before.flatMap fun b => (Xml.key b (documentParent ks o) o).fragments).flatten

end Call

variable {σ : Type} [Sink σ]

def call (w : Writer σ) : Call → Except ExportError Nat × Writer σ
  | .key k parent => w.writeKey k parent
  | .keySet ks => w.writeKeySet ks

/-- All calls in their order with their results, and the writer after them. -/
def calls (w : Writer σ) : List Call → List (Call × Except ExportError Nat) × Writer σ
  | [] => ([], w)
  | c :: cs => ((c, (w.call c).1) :: ((w.call c).2.calls cs).1, ((w.call c).2.calls cs).2)

theorem contributes_of_outcome {c : Call} {o : Options} {result : Except ExportError Nat}
    (h : result = (c.rendering o).outcome) :
    c.Contributes o result (c.rendering o).bytes := by
  subst h
  refine ⟨List.prefix_rfl, ?_, ?_, ?_⟩
  · intro n ok
    obtain ⟨complete, count⟩ := Rendering.outcome_eq_ok_iff.mp ok
    exact ⟨complete, rfl, count⟩
  · rintro k parent e rfl refused
    have nothing := (key_refused (Rendering.outcome_eq_tooLong_iff.mp refused)).1
    show (Xml.key k parent o).bytes = []
    rw [nothing]
    rfl
  · rintro ks e rfl refused
    exact document_refused (Rendering.outcome_eq_tooLong_iff.mp refused)

theorem contributes_of_fault {c : Call} {o : Options} {part : Bytes} (f : Fault)
    (front : part <+: (c.rendering o).bytes) : c.Contributes o (.error (.sink f)) part :=
  ⟨front, by simp, by simp, by simp⟩

/-- Handing a rendering over contributes as its result says. -/
theorem contributes_writeTo (c : Call) (o : Options) (out : Buffered σ) :
    ∃ part, c.Contributes o ((c.rendering o).writeTo out).1 part ∧
      ((c.rendering o).writeTo out).2.received = out.received ++ part := by
  obtain ⟨part, through⟩ := (c.rendering o).delivered_writeTo out
  refine ⟨part, ?_, through.received⟩
  by_cases fault : ∀ f, ((c.rendering o).writeTo out).1 ≠ .error (.sink f)
  · obtain rfl := through.complete_iff.mp fault
    exact contributes_of_outcome (Rendering.result_writeTo fault)
  · push Not at fault
    obtain ⟨f, fault⟩ := fault
    rw [fault]
    exact contributes_of_fault f through.front

/-- What a writer keeps at all times, and how a call moves it. -/
structure Moved (w v : Writer σ) (c : Call) (result : Except ExportError Nat) (part : Bytes) :
    Prop where
  options : v.options = w.options
  contributes : c.Contributes w.options result part
  received : v.out.received = w.out.received ++ part
  bounded : w.out.pending.length ≤ Buffered.capacity → v.out.pending.length ≤ Buffered.capacity
  counted : v.written = w.written + result.toOption.getD 0
  flushed : ∀ ks n, c = .keySet ks → result = .ok n → v.out.pending = []

theorem bounded_writeTo (r : Rendering) {out : Buffered σ}
    (room : out.pending.length ≤ Buffered.capacity) :
    (r.writeTo out).2.pending.length ≤ Buffered.capacity :=
  r.writeTo_preserves (fun out : Buffered σ => out.pending.length ≤ Buffered.capacity)
    (fun h b => Buffered.length_pending_write_le h b) room

theorem flush_result (out : Buffered σ) :
    out.flush.2.pending.length ≤ out.pending.length ∧
      (out.flush.1 = .ok () → out.flush.2.pending = []) := by
  have shorter := Buffered.length_pending_drain_le out
  have empty := Buffered.pending_drain (w := out)
  unfold Buffered.flush
  split
  · next w e =>
    rw [e] at shorter empty
    exact ⟨shorter, fun _ => empty rfl⟩
  · next f w e =>
    rw [e] at shorter
    exact ⟨shorter, by simp⟩

theorem moved_call (w : Writer σ) (c : Call) :
    ∃ part, Moved w (w.call c).2 c (w.call c).1 part := by
  cases c with
  | key k parent =>
    obtain ⟨part, contributes, received⟩ := contributes_writeTo (.key k parent) w.options w.out
    exact ⟨part, rfl, contributes, received, bounded_writeTo _, rfl, by simp⟩
  | keySet ks =>
    obtain ⟨part, contributes, received⟩ := contributes_writeTo (.keySet ks) w.options w.out
    have bounded := fun room : w.out.pending.length ≤ Buffered.capacity =>
      bounded_writeTo ((Call.keySet ks).rendering w.options) room
    show ∃ part, Moved w (w.writeKeySet ks).2 (.keySet ks) (w.writeKeySet ks).1 part
    unfold writeKeySet
    split
    · next e out ended =>
      have ended : ((Call.keySet ks).rendering w.options).writeTo w.out = (.error e, out) := ended
      rw [ended] at contributes received bounded
      exact ⟨part, rfl, contributes, received, bounded, rfl, by simp⟩
    · next n out ended =>
      have ended : ((Call.keySet ks).rendering w.options).writeTo w.out = (.ok n, out) := ended
      rw [ended] at contributes received bounded
      obtain ⟨shorter, empty⟩ := flush_result out
      have kept := Buffered.received_flush out
      generalize out.flush = flushed at shorter empty kept
      obtain ⟨result, flushed⟩ := flushed
      have later : flushed.received = w.out.received ++ part := kept.trans received
      have room := fun h => Nat.le_trans shorter (bounded h)
      cases result with
      | ok _ => exact ⟨part, rfl, contributes, later, room, rfl, fun _ _ _ _ => empty rfl⟩
      | error f =>
        exact ⟨part, rfl, contributes_of_fault f contributes.front, later, room, rfl,
          fun _ _ _ ok => by cases ok⟩

/-- The bytes of the calls that succeeded. -/
def total : List (Call × Except ExportError Nat) → Nat
  | [] => 0
  | (_, result) :: rs => result.toOption.getD 0 + total rs

/-- What several calls with the given results and parts have made of a writer. -/
structure Recorded (w v : Writer σ) (rs : List (Call × Except ExportError Nat)) (parts : List Bytes) :
    Prop where
  idle : rs = [] → v = w
  received : v.out.received = w.out.received ++ parts.flatten
  bounded : w.out.pending.length ≤ Buffered.capacity → v.out.pending.length ≤ Buffered.capacity
  counted : v.written = w.written + total rs
  flushed : ∀ ks n, rs.getLast? = some (.keySet ks, .ok n) →
    v.out.pending = [] ∧ (document ks w.options).bytes <:+ v.out.received

theorem Recorded.nothing (w : Writer σ) : Recorded w w [] [] :=
  ⟨fun _ => rfl, by simp, id, rfl, by simp⟩

theorem Recorded.cons {w v u : Writer σ} {c : Call} {result : Except ExportError Nat} {part : Bytes}
    {rs : List (Call × Except ExportError Nat)} {parts : List Bytes}
    (first : Moved w v c result part) (later : Recorded v u rs parts) :
    Recorded w u ((c, result) :: rs) (part :: parts) := by
  refine ⟨by simp, ?_, fun room => later.bounded (first.bounded room), ?_, ?_⟩
  · rw [later.received, first.received, List.flatten_cons, List.append_assoc]
  · rw [later.counted, first.counted, total, Nat.add_assoc]
  · intro ks n last
    cases rs with
    | nil =>
      obtain ⟨rfl, rfl⟩ : c = .keySet ks ∧ result = .ok n := by simpa using last
      obtain rfl := later.idle rfl
      obtain ⟨-, whole, -⟩ := first.contributes.ok n rfl
      refine ⟨first.flushed ks n rfl rfl, ?_⟩
      rw [first.received, whole]
      exact List.suffix_append _ _
    | cons r rs =>
      rw [List.getLast?_cons_cons] at last
      rw [← first.options]
      exact later.flushed ks n last

/-- One part per call, fixed once the call is made, whatever calls follow. -/
theorem recorded_calls (w : Writer σ) (cs : List Call) :
    ∃ parts, List.Forall₂ (fun r part => r.1.Contributes w.options r.2 part) (w.calls cs).1 parts ∧
      ∀ i, Recorded w (w.calls (cs.take i)).2 (w.calls (cs.take i)).1 (parts.take i) := by
  induction cs generalizing w with
  | nil =>
    refine ⟨[], .nil, ?_⟩
    intro i
    rw [List.take_nil, List.take_nil]
    exact Recorded.nothing w
  | cons c cs ih =>
    obtain ⟨part, first⟩ := moved_call w c
    obtain ⟨parts, contribute, later⟩ := ih (w.call c).2
    rw [first.options] at contribute
    refine ⟨part :: parts, .cons first.contributes contribute, ?_⟩
    intro i
    cases i with
    | zero => exact Recorded.nothing w
    | succ i => exact Recorded.cons first (later i)

/-- What a writer on `s` holds to after calls with the given results and parts, and in the end. -/
structure Kept (s : σ) (o : Options) (w : Writer σ) (rs : List (Call × Except ExportError Nat))
    (parts : List Bytes) : Prop where
  whole : Sink.received w.out.sink ++ w.out.pending = Sink.received s ++ parts.flatten
  bounded : w.out.pending.length ≤ 8192
  counted : w.written = total rs
  flushed : ∀ ks n, rs.getLast? = some (.keySet ks, .ok n) →
    w.out.pending = [] ∧ (document ks o).bytes <:+ Sink.received w.out.sink
  finished : w.finish.1 = .ok () → Sink.received w.finish.2 = Sink.received s ++ parts.flatten
  unfinished : ∀ f, w.finish.1 = .error f →
    Sink.received w.finish.2 <+: Sink.received s ++ parts.flatten
  released : Sink.received w.release <+: Sink.received s ++ parts.flatten

theorem received_release_prefix (out : Buffered σ) :
    Sink.received out.release <+: out.received :=
  ⟨out.drain.2.pending, Buffered.received_drain out⟩

theorem received_finish (out : Buffered σ) :
    (out.finish.1 = .ok () → Sink.received out.finish.2 = out.received) ∧
      Sink.received out.finish.2 <+: out.received := by
  have kept := Buffered.received_drain out
  have empty := Buffered.pending_drain (w := out)
  unfold Buffered.finish
  split
  · next w e =>
    rw [e] at kept empty
    have all : Sink.received w.sink = out.received := by
      rw [← kept, Buffered.received, empty rfl, List.append_nil]
    exact ⟨fun _ => all, all ▸ List.prefix_rfl⟩
  · next f w e =>
    rw [e] at kept
    exact ⟨by simp, kept ▸ received_release_prefix w⟩

theorem map_fst_calls (w : Writer σ) (cs : List Call) : (w.calls cs).1.map Prod.fst = cs := by
  induction cs generalizing w with
  | nil => rfl
  | cons c cs ih => exact congrArg (c :: ·) (ih (w.call c).2)

/-- The results of the first calls do not depend on those that follow. -/
theorem calls_take (w : Writer σ) (cs : List Call) (i : Nat) :
    (w.calls (cs.take i)).1 = (w.calls cs).1.take i := by
  induction cs generalizing w i with
  | nil => simp [calls]
  | cons c cs ih =>
    cases i with
    | zero => rfl
    | succ i => exact congrArg ((c, (w.call c).1) :: ·) (ih (w.call c).2 i)

/-- Whatever the sink does, after each call the bytes it has received and those that wait are one part
for each call so far; so are the bytes in the end, unless finishing fails, when a front of them has come
through. -/
theorem calls_keep_every_byte (s : σ) (o : Options) (cs : List Call) :
    ((ofSink s o).calls cs).1.map Prod.fst = cs ∧
      ∃ parts,
        List.Forall₂ (fun r part => r.1.Contributes o r.2 part) ((ofSink s o).calls cs).1 parts ∧
        ∀ i, Kept s o ((ofSink s o).calls (cs.take i)).2 (((ofSink s o).calls cs).1.take i)
          (parts.take i) := by
  refine ⟨map_fst_calls _ cs, ?_⟩
  obtain ⟨parts, contribute, recorded⟩ := recorded_calls (ofSink s o) cs
  refine ⟨parts, contribute, ?_⟩
  intro i
  obtain ⟨-, received, bounded, counted, flushed⟩ := recorded i
  rw [calls_take] at counted flushed
  generalize ((ofSink s o).calls (cs.take i)).2 = w at received bounded counted flushed
  have start : (ofSink s o).out.received = Sink.received s := List.append_nil _
  rw [start] at received
  obtain ⟨finished, unfinished⟩ := received_finish w.out
  refine ⟨received, bounded (Nat.zero_le _), by simpa [ofSink] using counted, ?_, ?_, ?_, ?_⟩
  · intro ks n last
    obtain ⟨empty, ends⟩ := flushed ks n last
    refine ⟨empty, ?_⟩
    rw [Buffered.received, empty, List.append_nil] at ends
    exact ends
  · intro done
    exact (finished done).trans received
  · intro _ _
    rw [← received]
    exact unfinished
  · rw [← received]
    exact received_release_prefix w.out

end Writer

end KeyExport.Xml
