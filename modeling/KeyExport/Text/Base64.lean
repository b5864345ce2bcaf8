import KeyExport.Text.Bytes

/-!
# Base64

Three bytes are written as four characters of six bits each; a last group of one or two bytes is filled
up with `=`.
-/

namespace KeyExport.Base64

def alphabet : Bytes :=
  Bytes.ofString "ABCDEFGHIJKLMNOPQRSTUVWXYZabcdefghijklmnopqrstuvwxyz0123456789+/"

def pad : UInt8 := 0x3D

/-- The character of the sextet that starts `shift` bits above the lowest bit of `group`. -/
def sextet (group : Nat) (shift : Nat) : UInt8 := alphabet.getD (group >>> shift % 64) pad

def encode : Bytes → Bytes
  | [] => []
  | [a] =>
    let group := a.toNat <<< 16
    [sextet group 18, sextet group 12, pad, pad]
  | [a, b] =>
    let group := a.toNat <<< 16 + b.toNat <<< 8
    [sextet group 18, sextet group 12, sextet group 6, pad]
  | a :: b :: c :: rest =>
    let group := a.toNat <<< 16 + b.toNat <<< 8 + c.toNat
    sextet group 18 :: sextet group 12 :: sextet group 6 :: sextet group 0 :: encode rest

theorem length_encode (b : Bytes) : (encode b).length = 4 * ((b.length + 2) / 3) := by
  fun_induction encode b with
  | case1 => rfl
  | case2 => simp
  | case3 => simp
  | case4 a b c rest group ih =>
    simp only [List.length_cons, ih]
    omega

end KeyExport.Base64
