import KeyExport.Json.Token

/-!
# Passing over a value

Any value can be passed over, however deep it is nested: the containers that are still open are kept in a
list, the innermost first, together with what may come next.
-/

namespace KeyExport.Json

inductive Container where
  | array
  | object
deriving DecidableEq, Repr

inductive Expect where
  | value
  /-- A value, or the end of the array that has just begun. -/
  | valueOrEnd
  /-- A name, or the end of the object that has just begun. -/
  | nameOrEnd
  | name
  | colon
  /-- A comma, or the end of the innermost container. -/
  | commaOrEnd
deriving DecidableEq, Repr

structure Skip where
  opened : List Container := []
  expect : Expect := .value
deriving DecidableEq, Repr

namespace Skip

/-- Whether the value is complete. -/
def isDone (s : Skip) : Bool := s.opened.isEmpty && s.expect = .commaOrEnd

/-- The first token of a value. -/
def begin? (opened : List Container) : Token → Option Skip
  | .openArray => some ⟨.array :: opened, .valueOrEnd⟩
  | .openObject => some ⟨.object :: opened, .nameOrEnd⟩
  | .null | .bool _ | .number _ | .string _ => some ⟨opened, .commaOrEnd⟩
  | _ => none

def step? (s : Skip) (t : Token) : Option Skip :=
  match s.expect, t, s.opened with
  | .value, t, opened => begin? opened t
  | .valueOrEnd, .closeArray, .array :: opened => some ⟨opened, .commaOrEnd⟩
  | .valueOrEnd, t, opened => begin? opened t
  | .nameOrEnd, .closeObject, .object :: opened => some ⟨opened, .commaOrEnd⟩
  | .nameOrEnd, .string _, opened => some ⟨opened, .colon⟩
  | .name, .string _, opened => some ⟨opened, .colon⟩
  | .colon, .colon, opened => some ⟨opened, .value⟩
  | .commaOrEnd, .comma, .array :: opened => some ⟨.array :: opened, .value⟩
  | .commaOrEnd, .comma, .object :: opened => some ⟨.object :: opened, .name⟩
  | .commaOrEnd, .closeArray, .array :: opened => some ⟨opened, .commaOrEnd⟩
  | .commaOrEnd, .closeObject, .object :: opened => some ⟨opened, .commaOrEnd⟩
  | _, _, _ => none

end Skip

end KeyExport.Json
