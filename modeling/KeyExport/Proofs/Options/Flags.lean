import KeyExport.Proofs.Exports
import Mathlib.Data.Nat.Bitwise

/-!
# Flags and options in step

Each switch has a bit of its own, the lowest eleven. So setting and clearing bits of a word does to the
options that are read from it what turning on and off the switches of these bits does, one by one, and
the word can be read off its options up to the bits that belong to no switch. These change nothing.
-/

namespace KeyExport

namespace Switch

/-- The place of the switch's bit. -/
def bit : Switch → Nat
  | numbers => 0
  | condensed => 1
  | fullName => 2
  | hierarchical => 3
  | header => 4
  | suppressXmlHeaders => 5
  | showIndices => 6
  | showFlags => 7
  | showMeta => 8
  | keyValue => 9
  | keyMeta => 10

theorem toNat_mask (s : Switch) : s.mask.toNat = 2 ^ s.bit := by cases s <;> rfl

theorem bit_lt (s : Switch) : s.bit < 11 := by cases s <;> decide

theorem bit_injective {s t : Switch} (same : s.bit = t.bit) : s = t := by
  have all : ∀ s ∈ Switch.all, ∀ t ∈ Switch.all, s.bit = t.bit → s = t := by decide
  exact all s s.mem_all t t.mem_all same

theorem exists_bit_eq {i : Nat} (known : i < 11) : ∃ s : Switch, s.bit = i := by
  have all : ∀ j < 11, ∃ s ∈ Switch.all, s.bit = j := by decide
  obtain ⟨s, -, place⟩ := all i known
  exact ⟨s, place⟩

end Switch

/-! ## Words as sets of bits -/

namespace Flags

def bit (f : Flags) (i : Nat) : Bool := f.value.toNat.testBit i

theorem ext_bit {f g : Flags} (same : ∀ i, f.bit i = g.bit i) : f = g := by
  have values : f.value = g.value := UInt32.toNat_inj.mp (Nat.eq_of_testBit_eq same)
  cases f
  cases g
  exact congrArg mk values

theorem bit_set (f : Flags) (mask : UInt32) (i : Nat) :
    (f.set mask).bit i = (f.bit i || mask.toNat.testBit i) := by
  rw [bit, set, UInt32.toNat_or, Nat.testBit_or]
  rfl

theorem bit_clear (f : Flags) (mask : UInt32) {i : Nat} (inside : i < 32) :
    (f.clear mask).bit i = (f.bit i && !mask.toNat.testBit i) := by
  have others : (~~~mask).toNat = 2 ^ 32 - (mask.toNat + 1) := by
    rw [UInt32.toNat_not, Nat.sub_sub, Nat.add_comm]
    rfl
  rw [bit, clear, UInt32.toNat_and, Nat.testBit_and, others,
    Nat.testBit_two_pow_sub_succ mask.toNat_lt]
  simp [inside, bit]

theorem has_iff (f : Flags) (mask : UInt32) :
    f.has mask = true ↔ ∃ i, mask.toNat.testBit i = true ∧ f.value.toNat.testBit i = true := by
  have word : f.has mask = true ↔ f.value.toNat &&& mask.toNat ≠ 0 := by
    rw [has, bne_iff_ne, ne_eq, ← UInt32.toNat_inj, UInt32.toNat_and]
    rfl
  rw [word]
  constructor
  · intro shared
    obtain ⟨i, both⟩ := Nat.exists_testBit_of_ne_zero shared
    rw [Nat.testBit_and, Bool.and_eq_true] at both
    exact ⟨i, both.2, both.1⟩
  · rintro ⟨i, asked, given⟩ none
    have both : (f.value.toNat &&& mask.toNat).testBit i = true := by
      rw [Nat.testBit_and, given, asked]
      rfl
    rw [none, Nat.zero_testBit] at both
    cases both

/-- The mask of a switch has just its bit. -/
theorem has_mask (f : Flags) (s : Switch) : f.has s.mask = f.bit s.bit := by
  rw [Bool.eq_iff_iff, has_iff]
  simp only [s.toNat_mask, Nat.testBit_two_pow, decide_eq_true_eq]
  constructor
  · rintro ⟨i, rfl, given⟩
    exact given
  · intro given
    exact ⟨s.bit, rfl, given⟩

end Flags

/-! ## Edits -/

/-- A call on a word, with whatever bits. -/
inductive Edit where
  | set (mask : UInt32)
  | clear (mask : UInt32)

def Flags.edit (f : Flags) : Edit → Flags
  | .set mask => f.set mask
  | .clear mask => f.clear mask

namespace Options

/-- Turn every switch on or off whose bit is in the mask. -/
def turn (o : Options) (mask : UInt32) (on : Bool) : Options :=
  (Switch.all.filter fun s => mask &&& s.mask != 0).foldl (fun o s => o.set s on) o

def edit (o : Options) : Edit → Options
  | .set mask => o.turn mask true
  | .clear mask => o.turn mask false

theorem get_foldl_set (o : Options) (ss : List Switch) (on : Bool) (t : Switch) :
    (ss.foldl (fun o s => o.set s on) o).get t = if t ∈ ss then on else o.get t := by
  induction ss generalizing o with
  | nil => simp
  | cons s ss ih =>
    rw [List.foldl_cons, ih, get_set]
    by_cases here : t = s <;> by_cases later : t ∈ ss <;> simp [here, later]

theorem get_turn (o : Options) (mask : UInt32) (on : Bool) (s : Switch) :
    (o.turn mask on).get s = if mask.toNat.testBit s.bit then on else o.get s := by
  have asked : (mask &&& s.mask != 0) = mask.toNat.testBit s.bit := Flags.has_mask ⟨mask⟩ s
  rw [turn, get_foldl_set]
  simp only [List.mem_filter, Switch.mem_all, asked, true_and]

/-- One call does the same to the options as to the word. -/
theorem ofFlags_edit (f : Flags) (e : Edit) : ofFlags (f.edit e) = (ofFlags f).edit e := by
  ext s
  rw [get_ofFlags, Flags.has_mask]
  cases e with
  | set mask =>
    rw [Flags.edit, edit, get_turn, get_ofFlags, Flags.has_mask, Flags.bit_set]
    cases mask.toNat.testBit s.bit <;> simp
  | clear mask =>
    have inside : s.bit < 32 := Nat.lt_trans s.bit_lt (by decide)
    rw [Flags.edit, edit, get_turn, get_ofFlags, Flags.has_mask, Flags.bit_clear f mask inside]
    cases mask.toNat.testBit s.bit <;> simp

/-- So do any number of calls. -/
theorem ofFlags_edits (f : Flags) (es : List Edit) :
    ofFlags (es.foldl Flags.edit f) = es.foldl edit (ofFlags f) := by
  induction es generalizing f with
  | nil => rfl
  | cons e es ih => rw [List.foldl_cons, ih, ofFlags_edit, List.foldl_cons]

/-! ## There and back -/

theorem bit_foldl_set (o : Options) (f : Flags) (ss : List Switch) (i : Nat) :
    (ss.foldl (fun f s => if o.get s then f.set s.mask else f) f).bit i = true ↔
      f.bit i = true ∨ ∃ s ∈ ss, s.bit = i ∧ o.get s = true := by
  induction ss generalizing f with
  | nil => simp
  | cons s ss ih =>
    rw [List.foldl_cons, ih]
    have first : (if o.get s then f.set s.mask else f).bit i = true ↔
        f.bit i = true ∨ s.bit = i ∧ o.get s = true := by
      cases on : o.get s <;>
        simp [Flags.bit_set, s.toNat_mask, Nat.testBit_two_pow]
    rw [first, or_assoc]
    simp

theorem bit_toFlags (o : Options) (i : Nat) :
    o.toFlags.bit i = true ↔ ∃ s, s.bit = i ∧ o.get s = true := by
  have none : ¬({} : Flags).bit i = true := by simp [Flags.bit]
  rw [toFlags, flagPairs_eq_map, List.foldl_map, bit_foldl_set]
  simp [none, Switch.mem_all]

/-- What comes back are the bits of the switches. -/
theorem toFlags_ofFlags (f : Flags) : (ofFlags f).toFlags = ⟨f.value % 2048⟩ := by
  apply Flags.ext_bit
  intro i
  have low : (⟨f.value % 2048⟩ : Flags).bit i = (decide (i < 11) && f.bit i) := by
    rw [Flags.bit, UInt32.toNat_mod]
    exact Nat.testBit_mod_two_pow f.value.toNat 11 i
  rw [low, Bool.eq_iff_iff, bit_toFlags, Bool.and_eq_true, decide_eq_true_eq]
  constructor
  · rintro ⟨s, rfl, on⟩
    rw [get_ofFlags, Flags.has_mask] at on
    exact ⟨s.bit_lt, on⟩
  · rintro ⟨known, on⟩
    obtain ⟨s, rfl⟩ := Switch.exists_bit_eq known
    exact ⟨s, rfl, by rwa [get_ofFlags, Flags.has_mask]⟩

theorem ofFlags_toFlags (o : Options) : ofFlags o.toFlags = o := by
  ext s
  rw [get_ofFlags, Flags.has_mask, Bool.eq_iff_iff, bit_toFlags]
  constructor
  · rintro ⟨t, place, on⟩
    rwa [← Switch.bit_injective place]
  · exact fun on => ⟨s, rfl, on⟩

end Options

/-- The same export with other options. -/
def Export.under (o : Options) : Export → Export
  | key k parent _ => .key k parent o
  | document ks _ => .document ks o
  | line k _ => .line k o
  | listing ks _ => .listing ks o

/-- A word and the options read from it stay in step, whatever bits are set and cleared, and all exports
are the same for both. A question for several bits is answered by any of them. Going back from the
options gives the word without the bits that belong to no switch, and these change no export. -/
theorem Flags.options_follow_edits (start : Flags) (es : List Edit) :
    let last := es.foldl Flags.edit start
    let options := es.foldl Options.edit (.ofFlags start)
    Options.ofFlags last = options ∧
      options.toFlags = ⟨last.value % 2048⟩ ∧
      (∀ mask, last.has mask = true ↔
        ∃ i, mask.toNat.testBit i = true ∧ last.value.toNat.testBit i = true) ∧
      ∀ (e : Export) {σ : Type} [Sink σ] (s : σ),
        (e.under (.ofFlags last)).writeTo s = (e.under options).writeTo s ∧
          (e.under (.ofFlags last)).writeTo s = (e.under (.ofFlags ⟨last.value % 2048⟩)).writeTo s := by
  intro last options
  have step : Options.ofFlags last = options := Options.ofFlags_edits start es
  have back : options.toFlags = ⟨last.value % 2048⟩ := by
    rw [← step, Options.toFlags_ofFlags]
  have known : Options.ofFlags ⟨last.value % 2048⟩ = options := by
    rw [← back, Options.ofFlags_toFlags]
  refine ⟨step, back, last.has_iff, ?_⟩
  intro e σ _ s
  rw [step, known]
  exact ⟨rfl, rfl⟩

end KeyExport
