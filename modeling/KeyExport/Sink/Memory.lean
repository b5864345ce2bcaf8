import KeyExport.Sink.Basic

/-!
# A sink that takes everything

What it received is kept in pieces, the latest first, so taking a piece costs nothing.
-/

namespace KeyExport

structure Memory where
  pieces : List Bytes := []

namespace Memory

def contents (m : Memory) : Bytes := m.pieces.reverse.flatten

theorem contents_cons (m : Memory) (b : Bytes) : contents ⟨b :: m.pieces⟩ = m.contents ++ b := by
  simp [contents]

instance : Sink Memory where
  write m b := (.accepted b.length, ⟨b :: m.pieces⟩)
  flush m := (.ok (), m)
  received := contents
  patience _ := 0
  taken_write_le _ _ := Nat.le_refl _
  received_write m b := by simp [Reply.taken, contents_cons]
  received_flush _ := rfl
  patience_write_lt _ _ h := by simp at h
  final_write _ _ _ h := by simp at h

end Memory

end KeyExport
