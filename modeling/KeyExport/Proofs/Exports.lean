import KeyExport.Dump.Listing
import KeyExport.Proofs.Sink.Accepting
import KeyExport.Proofs.Sink.Limited
import KeyExport.Xml.Document

/-!
# Exports on one sink

Keys, documents and listings are exported one after the other, straight into a sink with a limit. Each
time the sink receives the longest front that fits of what the export has in memory, and the result says
what happened. The limit is all that counts: sinks with the same limit receive the same.
-/

namespace KeyExport

inductive Export where
  | key (k : Key) (parent : Option Xml.Parent) (o : Options)
  | document (ks : KeySet) (o : Options)
  | line (k : Key) (o : Options)
  | listing (ks : KeySet) (o : Options)

namespace Export

def rendering : Export → Rendering
  | key k parent o => Xml.key k parent o
  | document ks o => Xml.document ks o
  | line k o => Dump.key k o
  | listing ks o => Dump.keySet ks o

def writeTo {σ : Type} [Sink σ] (e : Export) (s : σ) : Except ExportError Nat × σ :=
  e.rendering.writeTo s

/-- How an export into memory ends. -/
def resultInMemory (e : Export) : Except ExportError Nat := (e.writeTo ({} : Memory)).1

/-- The bytes of an export into memory, until it ends or is refused. -/
def inMemory (e : Export) : Bytes := (e.writeTo ({} : Memory)).2.contents

theorem resultInMemory_eq (e : Export) : e.resultInMemory = e.rendering.outcome :=
  (Memory.writeTo_eq e.rendering {}).1

theorem inMemory_eq (e : Export) : e.inMemory = e.rendering.bytes :=
  (Memory.writeTo_eq e.rendering {}).2

/-- A single export, the sink before and after it, and its result. -/
structure Step (σ : Type) where
  asked : Export
  before : σ
  result : Except ExportError Nat
  after : σ

variable {σ τ : Type} [Sink σ] [Sink τ]

/-- All exports in their order; after a failure the next one follows. -/
def steps (s : σ) : List Export → List (Step σ)
  | [] => []
  | e :: es => ⟨e, s, (e.writeTo s).1, (e.writeTo s).2⟩ :: steps (e.writeTo s).2 es

/-- What the sink received during the step. -/
def Step.sent (x : Step σ) : Bytes :=
  (Sink.received x.after).drop (Sink.received x.before).length

variable [Limited σ] [Limited τ]

/-- Of the bytes in memory the longest front that fits is sent, and the result tells what became of
them. -/
structure Step.Exact (x : Step σ) : Prop where
  grown : Sink.received x.after = Sink.received x.before ++ x.sent
  front : x.sent <+: x.asked.inMemory
  fits : (Limited.limit x.before).fits x.sent.length = true
  longest : ∀ p, p <+: x.asked.inMemory → (Limited.limit x.before).fits p.length = true → p <+: x.sent
  ok : ∀ n, x.result = .ok n ↔
    (∃ m, x.asked.resultInMemory = .ok m) ∧ x.sent = x.asked.inMemory ∧ n = x.asked.inMemory.length
  tooLong : ∀ e, x.result = .error (.nameTooLong e) ↔
    x.asked.resultInMemory = .error (.nameTooLong e) ∧ x.sent = x.asked.inMemory
  fault : ∀ f, x.result = .error (.sink f) ↔
    x.sent ≠ x.asked.inMemory ∧ f = (Limited.limit x.before).fault
  left : Limited.limit x.after = (Limited.limit x.before).after x.asked.inMemory

theorem sent_writeTo {s : σ} (h : Limited.steady s) (e : Export) :
    (Sink.received (e.writeTo s).2).drop (Sink.received s).length =
      (Limited.limit s).fitting e.inMemory := by
  obtain ⟨through, -⟩ := Rendering.filled_writeTo h e.rendering
  rw [e.inMemory_eq, writeTo, through.grown, List.drop_left]

theorem exact_writeTo {s : σ} (h : Limited.steady s) (e : Export) :
    Step.Exact ⟨e, s, (e.writeTo s).1, (e.writeTo s).2⟩ := by
  obtain ⟨through, result⟩ := Rendering.filled_writeTo h e.rendering
  have sent := sent_writeTo h e
  have all : (Limited.limit s).fitting e.inMemory = e.inMemory ↔
      (Limited.limit s).fits e.rendering.bytes.length = true := by
    rw [Limit.fitting_eq_iff, e.inMemory_eq]
  refine ⟨?_, ?_, ?_, ?_, ?_, ?_, ?_, ?_⟩
  all_goals simp only [Step.sent, sent]
  · rw [e.inMemory_eq]
    exact through.grown
  · exact Limit.fitting_front _ _
  · exact Limit.fits_fitting _ _
  · exact fun p => Limit.prefix_fitting
  · intro n
    rw [all, e.resultInMemory_eq, e.inMemory_eq, writeTo, result]
    split
    · next fits =>
      constructor
      · intro ok
        exact ⟨⟨n, ok⟩, fits, (Rendering.outcome_eq_ok_iff.mp ok).2⟩
      · rintro ⟨⟨m, ok⟩, -, rfl⟩
        exact Rendering.outcome_eq_ok_iff.mpr ⟨(Rendering.outcome_eq_ok_iff.mp ok).1, rfl⟩
    · next beyond => simp [beyond]
  · intro x
    rw [all, e.resultInMemory_eq, writeTo, result]
    split
    · next fits => simp [fits]
    · next beyond => simp [beyond]
  · intro f
    rw [ne_eq, all, writeTo, result]
    split
    · next fits => simp [fits, Rendering.outcome_ne_fault]
    · next beyond => simp [beyond, eq_comm]
  · rw [e.inMemory_eq]
    exact through.left

/-- Whatever is exported into a steady sink, every step is exact, and any other steady sink with the same
limit gives the same results and receives the same bytes at each step. -/
theorem steps_exact {s : σ} {t : τ} (hs : Limited.steady s) (ht : Limited.steady t)
    (same : Limited.limit s = Limited.limit t) (es : List Export) :
    (∀ x ∈ steps s es, x.Exact) ∧
      (steps s es).map (fun x => (x.result, x.sent)) =
        (steps t es).map (fun x => (x.result, x.sent)) := by
  induction es generalizing s t with
  | nil => exact ⟨by simp [steps], rfl⟩
  | cons e es ih =>
    obtain ⟨first, result⟩ := Rendering.filled_writeTo hs e.rendering
    obtain ⟨other, result'⟩ := Rendering.filled_writeTo ht e.rendering
    have left : Limited.limit (e.writeTo s).2 = Limited.limit (e.writeTo t).2 :=
      first.left.trans (same ▸ other.left.symm)
    obtain ⟨later, agree⟩ := ih first.keeps other.keeps left
    constructor
    · intro x mem
      rcases List.mem_cons.mp mem with rfl | mem
      · exact exact_writeTo hs e
      · exact later x mem
    · have results : (e.writeTo s).1 = (e.writeTo t).1 := by
        rw [writeTo, writeTo, result, result', same]
      have sent : (Sink.received (e.writeTo s).2).drop (Sink.received s).length =
          (Sink.received (e.writeTo t).2).drop (Sink.received t).length := by
        rw [sent_writeTo hs, sent_writeTo ht, same]
      simp only [steps, List.map_cons, Step.sent, results, sent]
      exact congrArg _ agree

/-- Small pieces and interruptions against a sink that takes all at once; both refuse only once, in the
middle of the document. -/
theorem steps_exact_in_small_pieces :
    let s : Bounded :=
      { terms :=
          { piece := fun i => some (i % 3 + 1), interruptions := fun i => i % 2, lasting := false }
        room := some 30 }
    let t : Bounded := { terms := { lasting := false }, room := some 30 }
    let es : List Export :=
      [.key { name := "a" } none {}, .document ⟨[{ name := "b", value := .text "1" }], by decide⟩ {},
        .key { name := "user:/" ++ "".pushn 'n' 4096, owner := some "o" } none { fullName := true },
        .line { name := "c" } {}]
    (Limited.steady s ∧ Limited.steady t ∧ Limited.limit s = Limited.limit t) ∧
      (∀ x ∈ steps s es, x.Exact) ∧
        (steps s es).map (fun x => (x.result, x.sent)) =
          (steps t es).map (fun x => (x.result, x.sent)) := by
  intro s t es
  have hs : Limited.steady s := by
    intro i n piece
    obtain rfl : i % 3 + 1 = n := Option.some.inj piece
    exact Nat.succ_pos _
  have ht : Limited.steady t := by
    intro i n piece
    cases piece
  exact ⟨⟨hs, ht, rfl⟩, steps_exact hs ht rfl es⟩

end Export

end KeyExport
