import KeyExport.Text.Bytes
import KeyExport.Text.Front

/-!
# Keys

A key has a name, perhaps a value, and what is known about it: comment, owner, numeric user id, and
whether it still has to be stored. Sizes are storage sizes, in which a text counts a terminator.

The name of a key below `user:` is qualified by its owner when it has one. A qualified name has to fit
into a path together with its terminator.
-/

namespace KeyExport

inductive Value where
  | absent
  | text (s : String)
  | binary (data : Bytes)
deriving DecidableEq, Repr

def Value.size : Value → Nat
  | .absent => 0
  | .text s => s.utf8ByteSize + 1
  | .binary data => data.length

structure Key where
  name : String
  value : Value := .absent
  comment : Option String := none
  owner : Option String := none
  uid : UInt32 := 0
  needsSync : Bool := false
deriving DecidableEq, Repr

/-- The most bytes of a path, the terminator included. -/
def maxPathLength : Nat := 4096

/-- A key whose qualified name takes `length` bytes, more than a path has. -/
structure NameTooLong where
  name : String
  length : Nat
deriving DecidableEq, Repr

namespace Key

def hasValue (k : Key) : Bool := k.value != .absent

def isText (k : Key) : Bool := k.value matches .text _

def isBinary (k : Key) : Bool := k.value matches .binary _

def nameSize (k : Key) : Nat := k.name.utf8ByteSize + 1

def valueSize (k : Key) : Nat := k.value.size

def commentSize (k : Key) : Nat := k.comment.elim 0 (·.utf8ByteSize + 1)

def userNamespace : String := "user:"

/-- The owner as it stands in a qualified name: by its numeric id or by its name. -/
def ownerText (k : Key) (owner : String) (numeric : Bool) : String :=
  if numeric then Text.numeral k.uid.toNat else owner

def qualifiedName (k : Key) (numeric : Bool) : String :=
  match Text.dropFront? userNamespace.toList k.name.toList, k.owner with
  | some rest, some owner => userNamespace ++ k.ownerText owner numeric ++ String.ofList rest
  | _, _ => k.name

def fullName (k : Key) (numeric : Bool) : Except NameTooLong String :=
  let name := k.qualifiedName numeric
  let length := name.utf8ByteSize + 1
  if length ≤ maxPathLength then .ok name else .error ⟨k.name, length⟩

theorem fullName_eq_ok_iff {k : Key} {numeric : Bool} {name : String} :
    k.fullName numeric = .ok name ↔
      name = k.qualifiedName numeric ∧ name.utf8ByteSize < maxPathLength := by
  unfold fullName
  by_cases h : (k.qualifiedName numeric).utf8ByteSize + 1 ≤ maxPathLength
  · simp only [h, ↓reduceIte, Except.ok.injEq]
    constructor
    · rintro rfl
      exact ⟨rfl, h⟩
    · exact fun ⟨e, _⟩ => e.symm
  · simp only [h, ↓reduceIte, reduceCtorEq, false_iff]
    rintro ⟨rfl, short⟩
    exact h short

end Key

end KeyExport
