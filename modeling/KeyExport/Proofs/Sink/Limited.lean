import KeyExport.Proofs.Sink.Accepting
import KeyExport.Sink.Bounded

/-!
# Sinks with a limit

All that is to be known of a sink with limited room is the room, what it says when there is none, and
whether that lasts. Such a sink takes at least a byte while there is room, and may be interrupted at any
time. How it cuts what it is offered, and when it is interrupted, makes no difference: it takes the
longest front that fits.
-/

namespace KeyExport

/-- The room that is left, the fault without room (or none: nothing is taken), and how long that stays. -/
structure Limit where
  room : Option Nat
  refusal : Option Fault
  lasting : Bool
deriving DecidableEq

namespace Limit

def fits (l : Limit) (n : Nat) : Bool := l.room.all (n ≤ ·)

/-- The longest front that fits. -/
def fitting (l : Limit) (b : Bytes) : Bytes := l.room.elim b b.take

def take (l : Limit) (n : Nat) : Limit := { l with room := l.room.map (· - n) }

def refuse (l : Limit) : Limit := { l with room := if l.lasting then some 0 else none }

/-- The limit after all of `b` was to be handed over. -/
def after (l : Limit) (b : Bytes) : Limit := if l.fits b.length then l.take b.length else l.refuse

def fault (l : Limit) : Fault := l.refusal.getD ⟨.writeZero, "failed to write whole buffer"⟩

/-- What a sink with this limit may answer to some bytes, and its limit from then on. -/
inductive Answers (l : Limit) : Reply → Limit → Prop where
  | interrupted : Answers l .interrupted l
  | took {n : Nat} (positive : 0 < n) (room : l.fits n = true) : Answers l (.accepted n) (l.take n)
  | failed {f : Fault} (full : l.room = some 0) (fault : l.refusal = some f) :
    Answers l (.failed f) l.refuse
  | nothing (full : l.room = some 0) (silent : l.refusal = none) : Answers l (.accepted 0) l.refuse

theorem fitting_front (l : Limit) (b : Bytes) : l.fitting b <+: b := by
  unfold fitting
  cases l.room with
  | none => exact List.prefix_rfl
  | some r => exact List.take_prefix r b

theorem fitting_eq_iff {l : Limit} {b : Bytes} : l.fitting b = b ↔ l.fits b.length = true := by
  unfold fitting fits
  cases l.room with
  | none => simp
  | some r =>
    simp only [Option.elim, Option.all_some, decide_eq_true_eq]
    refine ⟨?_, List.take_of_length_le⟩
    intro same
    rw [← same]
    exact List.length_take_le r b

theorem fits_fitting (l : Limit) (b : Bytes) : l.fits (l.fitting b).length = true := by
  unfold fitting fits
  cases l.room with
  | none => rfl
  | some r =>
    simp only [Option.elim, Option.all_some]
    exact decide_eq_true (List.length_take_le r b)

/-- No front that fits is longer. -/
theorem prefix_fitting {l : Limit} {b p : Bytes} (front : p <+: b) (fits : l.fits p.length = true) :
    p <+: l.fitting b := by
  unfold fitting
  unfold Limit.fits at fits
  cases room : l.room with
  | none => exact front
  | some r =>
    rw [room] at fits
    exact List.prefix_take_iff.mpr ⟨front, by simpa using fits⟩

theorem fits_add {l : Limit} {m n : Nat} (h : l.fits m = true) :
    l.fits (m + n) = (l.take m).fits n := by
  unfold fits take at *
  cases room : l.room with
  | none => rfl
  | some r =>
    rw [room] at h
    have enough : m ≤ r := by simpa using h
    simp only [Option.map_some, Option.all_some, decide_eq_decide]
    omega

theorem not_fits_add {l : Limit} {m n : Nat} (h : l.fits m = false) : l.fits (m + n) = false := by
  unfold fits at *
  cases room : l.room with
  | none => simp [room] at h
  | some r =>
    rw [room] at h
    have less : r < m := by simpa using h
    simp only [Option.all_some, decide_eq_false_iff_not]
    omega

theorem fitting_append {l : Limit} {a b : Bytes} (h : l.fits a.length = true) :
    l.fitting (a ++ b) = a ++ (l.take a.length).fitting b := by
  unfold fits at h
  unfold fitting take
  cases room : l.room with
  | none => rfl
  | some r =>
    rw [room] at h
    have enough : a.length ≤ r := by simpa using h
    simp only [Option.map_some, Option.elim, List.take_append, List.take_of_length_le enough]

theorem fitting_append_of_not_fits {l : Limit} {a : Bytes} (h : l.fits a.length = false)
    (b : Bytes) : l.fitting (a ++ b) = l.fitting a := by
  unfold fits at h
  unfold fitting
  cases room : l.room with
  | none => simp [room] at h
  | some r =>
    rw [room] at h
    have less : r < a.length := by simpa using h
    exact List.take_append_of_le_length (Nat.le_of_lt less)

theorem take_take (l : Limit) (m n : Nat) : (l.take m).take n = l.take (m + n) := by
  cases room : l.room <;> simp [take, room, Nat.sub_sub]

theorem refuse_take (l : Limit) (n : Nat) : (l.take n).refuse = l.refuse := rfl

theorem fault_take (l : Limit) (n : Nat) : (l.take n).fault = l.fault := rfl

theorem after_append {l : Limit} {a b : Bytes} (h : l.fits a.length = true) :
    l.after (a ++ b) = (l.take a.length).after b := by
  rw [after, after, List.length_append, fits_add h, take_take, refuse_take]

theorem after_append_of_not_fits {l : Limit} {a : Bytes} (h : l.fits a.length = false) (b : Bytes) :
    l.after (a ++ b) = l.after a := by
  rw [after, after, List.length_append, not_fits_add h, h, if_neg (by simp), if_neg (by simp)]

theorem fits_zero (l : Limit) : l.fits 0 = true := by
  unfold fits
  cases l.room <;> simp

theorem after_nil (l : Limit) : l.after [] = l := by
  unfold after fits take
  cases room : l.room <;> simp [← room]

theorem not_fits_of_full {l : Limit} (full : l.room = some 0) {b : Bytes} (some : b ≠ []) :
    l.fits b.length = false ∧ l.fitting b = [] := by
  refine ⟨?_, by simp [fitting, full]⟩
  simpa [fits, full] using some

end Limit

/-- A sink that keeps to its limit in all steady states, and stays in these. -/
class Limited (σ : Type) [Sink σ] where
  limit : σ → Limit
  steady : σ → Prop
  steady_write : ∀ {s : σ}, steady s → ∀ b, steady (Sink.write s b).2
  answers_write : ∀ {s : σ}, steady s → ∀ {b : Bytes}, b ≠ [] →
    (limit s).Answers (Sink.write s b).1 (limit (Sink.write s b).2)

namespace Bounded

theorem portion_ne_nil {s : Bounded} (progress : ∀ i n, s.terms.piece i = some n → 0 < n)
    (room : s.room ≠ some 0) {b : Bytes} (some : b ≠ []) : s.portion b ≠ [] := by
  unfold portion
  have piece : (s.terms.piece s.answered).elim b b.take ≠ [] := by
    cases given : s.terms.piece s.answered with
    | none => exact some
    | some n =>
      have positive := progress s.answered n given
      simp [List.take_eq_nil_iff, some]
      omega
  cases left : s.room with
  | none => exact piece
  | some r =>
    have positive : r ≠ 0 := by
      rintro rfl
      exact room left
    simp only [Option.elim, List.take_eq_nil_iff, ne_eq, not_or]
    exact ⟨positive, piece⟩

theorem length_portion_le {s : Bounded} {r : Nat} (room : s.room = some r) (b : Bytes) :
    (s.portion b).length ≤ r := by
  simp only [portion, room, Option.elim, List.length_take]
  omega

/-- A bounded sink keeps to its limit when none of its pieces is empty. -/
instance : Limited Bounded where
  limit s := ⟨s.room, s.terms.refusal, s.terms.lasting⟩
  steady s := ∀ i n, s.terms.piece i = some n → 0 < n
  steady_write {s} h b := by
    have same : (s.write b).2.terms = s.terms := by
      unfold Bounded.write
      split
      · rfl
      · split <;> rfl
    show ∀ i n, (s.write b).2.terms.piece i = some n → 0 < n
    rw [same]
    exact h
  answers_write {s} h {b} some := by
    show Limit.Answers _ (s.write b).1 _
    by_cases waits : s.interrupted < s.terms.interruptions s.answered
    · simp only [Sink.write, write, waits, ↓reduceIte]
      exact .interrupted
    by_cases full : s.room = Option.some 0
    · simp only [Sink.write, write, waits, full, ↓reduceIte, refusal]
      cases fault : s.terms.refusal with
      | none => exact .nothing rfl rfl
      | some f => exact .failed rfl rfl
    · simp only [Sink.write, write, waits, full, ↓reduceIte]
      apply Limit.Answers.took
      · exact List.length_pos_iff.mpr (portion_ne_nil h full some)
      · unfold Limit.fits
        cases room : s.room with
        | none => rfl
        | some r => simpa using length_portion_le room b

/-- Without a limit a bounded sink takes everything, if only its flushes succeed. -/
theorem accepting : Sink.Accepting fun s : Bounded =>
    Limited.steady s ∧ s.room = none ∧ s.terms.flushFault = none := by
  refine ⟨?_, ?_, id, ?_⟩
  · rintro s ⟨steady, room, flushes⟩ b
    refine ⟨Limited.steady_write steady b, ?_⟩
    show (s.write b).2.room = none ∧ (s.write b).2.terms.flushFault = none
    unfold Bounded.write
    split
    · exact ⟨room, flushes⟩
    · simp [room, flushes]
  · rintro s ⟨steady, room, -⟩ b some
    have answer := Limited.answers_write steady some
    generalize (Sink.write s b).1 = reply at answer ⊢
    generalize Limited.limit (Sink.write s b).2 = after at answer
    have unlimited : (Limited.limit s).room ≠ .some 0 := by
      show s.room ≠ .some 0
      simp [room]
    cases answer with
    | interrupted => exact .inl rfl
    | took positive =>
      obtain ⟨n, rfl⟩ := Nat.exists_eq_add_one_of_ne_zero (Nat.ne_of_gt positive)
      exact .inr ⟨n, rfl⟩
    | failed full => exact absurd full unlimited
    | nothing full => exact absurd full unlimited
  · rintro s ⟨-, -, flushes⟩
    show (s.flush).1 = .ok ()
    rw [Bounded.flush, flushes]
    rfl

end Bounded

/-! ## Handing over -/

namespace Sink

open Limited (limit steady)

variable {σ : Type} [Sink σ] [Limited σ]

/-- Between `s` and `t` the longest front of `whole` that fits came through. -/
structure Filled (s t : σ) (whole : Bytes) : Prop where
  keeps : steady t
  grown : received t = received s ++ (limit s).fitting whole
  left : limit t = (limit s).after whole

theorem answers_offer {s : σ} (h : steady s) {b : Bytes} (some : b ≠ []) :
    steady (offer s b).2 ∧
      ((∃ n, (offer s b).1 = .ok n ∧ (limit s).Answers (.accepted n) (limit (offer s b).2)) ∨
        ∃ f, (offer s b).1 = .error f ∧ (limit s).Answers (.failed f) (limit (offer s b).2)) := by
  fun_induction offer s b with
  | case1 s n t e =>
    have kept := Limited.steady_write h b
    have answer := Limited.answers_write h some
    rw [e] at kept answer
    exact ⟨kept, .inl ⟨n, rfl, answer⟩⟩
  | case2 s f t e =>
    have kept := Limited.steady_write h b
    have answer := Limited.answers_write h some
    rw [e] at kept answer
    exact ⟨kept, .inr ⟨f, rfl, answer⟩⟩
  | case3 s t e ih =>
    have kept := Limited.steady_write h b
    have answer := Limited.answers_write h some
    rw [e] at kept answer
    have same : limit t = limit s := by
      generalize limit t = l at answer
      cases answer
      rfl
    rw [← same]
    exact ih kept

theorem Filled.nothing {s : σ} (h : steady s) : Filled s s [] := by
  refine ⟨h, ?_, (Limit.after_nil _).symm⟩
  rw [List.prefix_nil.mp ((limit s).fitting_front []), List.append_nil]

/-- What is refused at once comes through up to nothing. -/
theorem Filled.refused {s t : σ} (kept : steady t) {b : Bytes} (full : (limit s).room = some 0)
    (some : b ≠ []) (same : Sink.received t = Sink.received s) (after : limit t = (limit s).refuse) :
    Filled s t b := by
  obtain ⟨beyond, nothing⟩ := Limit.not_fits_of_full full some
  refine ⟨kept, ?_, ?_⟩
  · rw [nothing, List.append_nil, same]
  · rw [after, Limit.after, beyond]
    rfl

/-- A part that fits, and what came through after it. -/
theorem Filled.append {s t u : σ} {a b : Bytes} (fits : (limit s).fits a.length = true)
    (first : Filled s t a) (next : Filled t u b) : Filled s u (a ++ b) := by
  have whole := Limit.fitting_eq_iff.mpr fits
  have taken : limit t = (limit s).take a.length := by
    rw [first.left, Limit.after, if_pos fits]
  refine ⟨next.keeps, ?_, ?_⟩
  · rw [next.grown, first.grown, whole, taken, Limit.fitting_append fits, List.append_assoc]
  · rw [next.left, taken, Limit.after_append fits]

/-- Nothing after a part that does not fit comes through. -/
theorem Filled.stopped {s t : σ} {a : Bytes} (beyond : (limit s).fits a.length = false)
    (part : Filled s t a) (b : Bytes) : Filled s t (a ++ b) := by
  refine ⟨part.keeps, ?_, ?_⟩
  · rw [part.grown, Limit.fitting_append_of_not_fits beyond]
  · rw [part.left, Limit.after_append_of_not_fits beyond]

theorem filled_pour {s : σ} (h : steady s) (b : Bytes) :
    Filled s (pour s b).sink b ∧
      (pour s b).stop.map (·.fault "failed to write whole buffer") =
        if (limit s).fits b.length then none else some (limit s).fault := by
  fun_induction pour s b with
  | case1 s =>
    exact ⟨Filled.nothing h, by simp [Limit.fits_zero]⟩
  | case2 s b some f t e =>
    obtain ⟨kept, answer⟩ := answers_offer h some
    have same := received_offer s b
    rw [e] at kept answer same
    rcases answer with ⟨n, ok, -⟩ | ⟨g, ⟨⟩, answer⟩
    · cases ok
    generalize after : limit t = l at answer
    cases answer with
    | failed full fault =>
      refine ⟨Filled.refused kept full some (by simpa [taken] using same) after, ?_⟩
      simp [(Limit.not_fits_of_full full some).1, Limit.fault, fault, Stop.fault]
  | case3 s b some t e =>
    obtain ⟨kept, answer⟩ := answers_offer h some
    have same := received_offer s b
    rw [e] at kept answer same
    rcases answer with ⟨n, ⟨⟩, answer⟩ | ⟨g, ok, -⟩
    · generalize after : limit t = l at answer
      cases answer with
      | took positive => exact absurd positive (Nat.lt_irrefl 0)
      | nothing full silent =>
        refine ⟨Filled.refused kept full some (by simpa [taken] using same) after, ?_⟩
        simp [(Limit.not_fits_of_full full some).1, Limit.fault, silent, Stop.fault]
    · cases ok
  | case4 s b some n t e ih =>
    obtain ⟨kept, answer⟩ := answers_offer h some
    have grown := received_offer s b
    have bound := taken_offer_le s b
    rw [e] at kept answer grown bound
    rcases answer with ⟨m, ⟨⟩, answer⟩ | ⟨g, ok, -⟩
    · generalize after : limit t = l at answer
      cases answer with
      | took _ room =>
        obtain ⟨rest, stop⟩ := ih kept
        have length : (b.take (n + 1)).length = n + 1 := List.length_take_of_le bound
        have fits : (limit s).fits (b.take (n + 1)).length = true := by rw [length]; exact room
        have first : Filled s t (b.take (n + 1)) := by
          refine ⟨kept, ?_, ?_⟩
          · rw [Limit.fitting_eq_iff.mpr fits]
            exact grown
          · rw [Limit.after, if_pos fits, length, after]
        constructor
        · have both := Filled.append fits first rest
          rwa [List.take_append_drop] at both
        · have whole : b.length = (n + 1) + (b.drop (n + 1)).length := by
            rw [List.length_drop]
            have : n + 1 ≤ b.length := bound
            omega
          rw [stop, after, Limit.fault_take, whole, Limit.fits_add room]
    · cases ok

theorem filled_writeAll {s : σ} (h : steady s) (b : Bytes) :
    Filled s (writeAll s b).2 b ∧
      (writeAll s b).1 =
        if (limit s).fits b.length then .ok b.length else .error (limit s).fault := by
  obtain ⟨through, stop⟩ := filled_pour h b
  have count : ∀ n, (writeAll s b).1 = .ok n → n = b.length := fun _ => count_writeAll
  unfold writeAll at count ⊢
  split
  · next t rest e =>
    rw [e] at through stop count
    refine ⟨through, ?_⟩
    split at stop
    · next fits => rw [if_pos fits, count _ rfl]
    · cases stop
  · next t rest st e =>
    rw [e] at through stop
    refine ⟨through, ?_⟩
    split at stop
    · cases stop
    · next beyond =>
      rw [if_neg beyond]
      exact congrArg Except.error (Option.some.inj stop)

theorem filled_writeFragments {s : σ} (h : steady s) (n : Nat) (fs : List Bytes) :
    Filled s (writeFragments s n fs).2 fs.flatten ∧
      (writeFragments s n fs).1 =
        if (limit s).fits fs.flatten.length then .ok (n + fs.flatten.length)
        else .error (limit s).fault := by
  induction fs generalizing s n with
  | nil =>
    exact ⟨Filled.nothing h, by simp [writeFragments, Limit.fits_zero]⟩
  | cons f fs ih =>
    obtain ⟨through, result⟩ := filled_writeAll h f
    rw [List.flatten_cons]
    unfold writeFragments
    split
    · next k t e =>
      rw [e] at through result
      split at result
      · next fits =>
        obtain rfl := Except.ok.inj result
        obtain ⟨rest, later⟩ := ih through.keeps (n + f.length)
        refine ⟨through.append fits rest, ?_⟩
        have taken : limit t = (limit s).take f.length := by
          rw [through.left, Limit.after, if_pos fits]
        rw [later, taken, List.length_append, Limit.fits_add fits, Limit.fault_take, Nat.add_assoc]
      · cases result
    · next fault t e =>
      rw [e] at through result
      split at result
      · cases result
      · next beyond =>
        have beyond : (limit s).fits f.length = false := by simpa using beyond
        refine ⟨through.stopped beyond _, ?_⟩
        rw [List.length_append, Limit.not_fits_add beyond]
        simpa using result

end Sink

/-- Of a rendering the longest front that fits comes through; whether it is everything decides between
the outcome of the rendering and the sink's own fault. -/
theorem Rendering.filled_writeTo {σ : Type} [Sink σ] [Limited σ] {s : σ} (h : Limited.steady s)
    (r : Rendering) :
    Sink.Filled s (r.writeTo s).2 r.bytes ∧
      (r.writeTo s).1 =
        if (Limited.limit s).fits r.bytes.length then r.outcome
        else .error (.sink (Limited.limit s).fault) := by
  obtain ⟨through, result⟩ := Sink.filled_writeFragments h 0 r.fragments
  have outcome : (∀ f, (r.writeTo s).1 ≠ .error (.sink f)) → (r.writeTo s).1 = r.outcome :=
    Rendering.result_writeTo
  unfold writeTo at outcome ⊢
  split
  · next f t e =>
    rw [e] at through result
    refine ⟨through, ?_⟩
    split at result
    · cases result
    · next beyond =>
      rw [show Rendering.bytes r = r.fragments.flatten from rfl, if_neg beyond]
      exact congrArg (Except.error ∘ ExportError.sink) (Except.error.inj result)
  · next n t e =>
    rw [e] at through result outcome
    refine ⟨through, ?_⟩
    split at result
    · next fits =>
      rw [show Rendering.bytes r = r.fragments.flatten from rfl, if_pos fits]
      apply outcome
      cases r.refusal <;> simp
    · cases result

end KeyExport
