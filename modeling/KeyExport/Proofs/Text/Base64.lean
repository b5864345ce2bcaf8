import KeyExport.Text.Base64
import Mathlib.Data.List.Nodup

/-!
# Reading Base64

No two of the 64 characters are the same and none of them fills up a group, so a character tells its
six bits and a group its bytes: bytes are determined by how they are written.
-/

namespace KeyExport.Base64

theorem length_alphabet : alphabet.length = 64 := by decide

theorem nodup_alphabet : alphabet.Nodup := by decide +kernel

theorem pad_notMem_alphabet : pad ∉ alphabet := by decide

theorem bits_lt (group shift : Nat) : group >>> shift % 64 < alphabet.length := by
  rw [length_alphabet]
  omega

theorem sextet_eq_get (group shift : Nat) :
    sextet group shift = alphabet.get ⟨group >>> shift % 64, bits_lt group shift⟩ := by
  rw [sextet, List.getD_eq_getElem?_getD, List.getElem?_eq_getElem (bits_lt group shift)]
  rfl

theorem sextet_mem_alphabet (group shift : Nat) : sextet group shift ∈ alphabet := by
  rw [sextet_eq_get]
  exact List.get_mem _ _

theorem sextet_ne_pad (group shift : Nat) : sextet group shift ≠ pad := by
  intro same
  exact pad_notMem_alphabet (same ▸ sextet_mem_alphabet group shift)

theorem sextet_injective {g h i j : Nat} (same : sextet g i = sextet h j) :
    g >>> i % 64 = h >>> j % 64 := by
  rw [sextet_eq_get, sextet_eq_get] at same
  exact Fin.mk.inj (nodup_alphabet.get_inj_iff.mp same)

theorem mem_encode {b : Bytes} {x : UInt8} (mem : x ∈ encode b) : x ∈ alphabet ∨ x = pad := by
  fun_induction encode b with
  | case1 => simp at mem
  | case2 a group =>
    simp only [List.mem_cons, List.not_mem_nil, or_false] at mem
    rcases mem with rfl | rfl | rfl | rfl
    · exact .inl (sextet_mem_alphabet _ _)
    · exact .inl (sextet_mem_alphabet _ _)
    · exact .inr rfl
    · exact .inr rfl
  | case3 a b group =>
    simp only [List.mem_cons, List.not_mem_nil, or_false] at mem
    rcases mem with rfl | rfl | rfl | rfl
    · exact .inl (sextet_mem_alphabet _ _)
    · exact .inl (sextet_mem_alphabet _ _)
    · exact .inl (sextet_mem_alphabet _ _)
    · exact .inr rfl
  | case4 a b c rest group ih =>
    simp only [List.mem_cons] at mem
    rcases mem with rfl | rfl | rfl | rfl | later
    · exact .inl (sextet_mem_alphabet _ _)
    · exact .inl (sextet_mem_alphabet _ _)
    · exact .inl (sextet_mem_alphabet _ _)
    · exact .inl (sextet_mem_alphabet _ _)
    · exact ih later

theorem eq_of_two_sextets {a d : UInt8}
    (first : sextet (a.toNat <<< 16) 18 = sextet (d.toNat <<< 16) 18)
    (second : sextet (a.toNat <<< 16) 12 = sextet (d.toNat <<< 16) 12) : a = d := by
  have high := sextet_injective first
  have low := sextet_injective second
  have := a.toNat_lt
  have := d.toNat_lt
  simp only [Nat.shiftRight_eq_div_pow, Nat.shiftLeft_eq] at high low
  apply UInt8.toNat_inj.mp
  omega

theorem eq_of_three_sextets {a b d e : UInt8}
    (first : sextet (a.toNat <<< 16 + b.toNat <<< 8) 18 = sextet (d.toNat <<< 16 + e.toNat <<< 8) 18)
    (second : sextet (a.toNat <<< 16 + b.toNat <<< 8) 12 = sextet (d.toNat <<< 16 + e.toNat <<< 8) 12)
    (third : sextet (a.toNat <<< 16 + b.toNat <<< 8) 6 = sextet (d.toNat <<< 16 + e.toNat <<< 8) 6) :
    a = d ∧ b = e := by
  have high := sextet_injective first
  have middle := sextet_injective second
  have low := sextet_injective third
  have := a.toNat_lt
  have := b.toNat_lt
  have := d.toNat_lt
  have := e.toNat_lt
  simp only [Nat.shiftRight_eq_div_pow, Nat.shiftLeft_eq] at high middle low
  rw [← UInt8.toNat_inj, ← UInt8.toNat_inj]
  omega

/-- The number of three bytes, from which their sextets are taken. -/
def group (a b c : UInt8) : Nat := a.toNat <<< 16 + b.toNat <<< 8 + c.toNat

theorem eq_of_four_sextets {a b c d e f : UInt8}
    (first : sextet (group a b c) 18 = sextet (group d e f) 18)
    (second : sextet (group a b c) 12 = sextet (group d e f) 12)
    (third : sextet (group a b c) 6 = sextet (group d e f) 6)
    (fourth : sextet (group a b c) 0 = sextet (group d e f) 0) : a = d ∧ b = e ∧ c = f := by
  have highest := sextet_injective first
  have high := sextet_injective second
  have low := sextet_injective third
  have lowest := sextet_injective fourth
  have := a.toNat_lt
  have := b.toNat_lt
  have := c.toNat_lt
  have := d.toNat_lt
  have := e.toNat_lt
  have := f.toNat_lt
  simp only [group, Nat.shiftRight_eq_div_pow, Nat.shiftLeft_eq] at highest high low lowest
  rw [← UInt8.toNat_inj, ← UInt8.toNat_inj, ← UInt8.toNat_inj]
  omega

theorem encode_injective {a b : Bytes} (same : encode a = encode b) : a = b := by
  fun_induction encode a generalizing b with
  | case1 =>
    rcases b with _ | ⟨d, _ | ⟨e, _ | ⟨f, others⟩⟩⟩
    · rfl
    all_goals simp [encode] at same
  | case2 x =>
    rcases b with _ | ⟨d, _ | ⟨e, _ | ⟨f, others⟩⟩⟩
    · simp [encode] at same
    · simp only [encode, List.cons.injEq] at same
      rw [eq_of_two_sextets same.1 same.2.1]
    · simp only [encode, List.cons.injEq] at same
      exact absurd same.2.2.1.symm (sextet_ne_pad _ _)
    · simp only [encode, List.cons.injEq] at same
      exact absurd same.2.2.1.symm (sextet_ne_pad _ _)
  | case3 x y =>
    rcases b with _ | ⟨d, _ | ⟨e, _ | ⟨f, others⟩⟩⟩
    · simp [encode] at same
    · simp only [encode, List.cons.injEq] at same
      exact absurd same.2.2.1 (sextet_ne_pad _ _)
    · simp only [encode, List.cons.injEq] at same
      obtain ⟨rfl, rfl⟩ := eq_of_three_sextets same.1 same.2.1 same.2.2.1
      rfl
    · simp only [encode, List.cons.injEq] at same
      exact absurd same.2.2.2.1.symm (sextet_ne_pad _ _)
  | case4 x y z rest _ =>
    rename_i ih
    rcases b with _ | ⟨d, _ | ⟨e, _ | ⟨f, others⟩⟩⟩
    · simp [encode] at same
    · simp only [encode, List.cons.injEq] at same
      exact absurd same.2.2.1 (sextet_ne_pad _ _)
    · simp only [encode, List.cons.injEq] at same
      exact absurd same.2.2.2.1 (sextet_ne_pad _ _)
    · simp only [encode, List.cons.injEq] at same
      obtain ⟨first, second, third, fourth, later⟩ := same
      obtain ⟨rfl, rfl, rfl⟩ := eq_of_four_sextets first second third fourth
      rw [ih later]

end KeyExport.Base64
