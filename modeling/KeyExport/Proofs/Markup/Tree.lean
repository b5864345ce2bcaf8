import KeyExport.Proofs.Markup.Token

/-!
# Trees of markup

`nodes?` reads tokens as nodes. A start tag opens an element, unless it closes it at once; an end tag
closes the innermost open element, whose name it has to repeat. What stands between the two are the
children of the element.

Tokens spell nodes when they are read as these nodes wherever they stand. So a tree can be read part by
part.
-/

namespace KeyExport.Markup

inductive Node where
  | declaration (b : Bytes)
  | comment (b : Bytes)
  | data (b : Bytes)
  | text (b : Bytes)
  | element (name : Bytes) (attributes : List Attribute) (children : List Node)

namespace Node

def name? : Node → Option Bytes
  | element name _ _ => some name
  | _ => none

def attributes : Node → List Attribute
  | element _ attributes _ => attributes
  | _ => []

def children : Node → List Node
  | element _ _ children => children
  | _ => []

/-- Text that only sets other nodes apart. -/
def isBlank : Node → Bool
  | text b => b.all Markup.isBlank
  | _ => false

end Node

/-- The nodes that are more than blanks. -/
def solid (ns : List Node) : List Node := ns.filter (!·.isBlank)

@[simp] theorem solid_nil : solid [] = [] := rfl

@[simp] theorem solid_append (ns ms : List Node) : solid (ns ++ ms) = solid ns ++ solid ms :=
  List.filter_append ns ms

@[simp] theorem solid_cons_element (name : Bytes) (attributes : List Attribute)
    (children ns : List Node) :
    solid (.element name attributes children :: ns) = .element name attributes children :: solid ns :=
  rfl

theorem solid_text {b : Bytes} (blank : Blank b) : solid [.text b] = [] := by
  apply List.filter_eq_nil_iff.mpr
  intro n mem
  obtain rfl := List.mem_singleton.mp mem
  have all : b.all isBlank = true := List.all_eq_true.mpr blank
  simp [Node.isBlank, all]

theorem solid_cons_of_name? {n : Node} {name : Bytes} (h : n.name? = some name) (ns : List Node) :
    solid (n :: ns) = n :: solid ns := by
  cases n with
  | element => rfl
  | _ => cases h

/-- An element whose end is still to come, and its siblings so far, the last one first. -/
structure Opened where
  name : Bytes
  attributes : List Attribute
  before : List Node

/-- Read on inside the opened elements, the innermost first; `done` are its children so far. -/
def nodesAfter? (opened : List Opened) (done : List Node) : List Token → Option (List Node)
  | [] => if opened.isEmpty then some done.reverse else none
  | .declaration b :: ts => nodesAfter? opened (.declaration b :: done) ts
  | .comment b :: ts => nodesAfter? opened (.comment b :: done) ts
  | .data b :: ts => nodesAfter? opened (.data b :: done) ts
  | .text b :: ts => nodesAfter? opened (.text b :: done) ts
  | .startTag name attributes _ true :: ts =>
    nodesAfter? opened (.element name attributes [] :: done) ts
  | .startTag name attributes _ false :: ts => nodesAfter? (⟨name, attributes, done⟩ :: opened) [] ts
  | .endTag name :: ts =>
    match opened with
    | [] => none
    | e :: outer =>
      if e.name = name then
        nodesAfter? outer (.element name e.attributes done.reverse :: e.before) ts
      else none

def nodes? (ts : List Token) : Option (List Node) := nodesAfter? [] [] ts

/-- The tokens are read as the nodes, inside whatever elements and with whatever siblings. -/
def Spells (ts : List Token) (ns : List Node) : Prop :=
  ∀ opened done rest, nodesAfter? opened done (ts ++ rest) = nodesAfter? opened (ns.reverse ++ done) rest

namespace Spells

theorem nil : Spells [] [] := fun _ _ _ => rfl

theorem declaration (b : Bytes) : Spells [.declaration b] [.declaration b] := fun _ _ _ => rfl

theorem comment (b : Bytes) : Spells [.comment b] [.comment b] := fun _ _ _ => rfl

theorem data (b : Bytes) : Spells [.data b] [.data b] := fun _ _ _ => rfl

theorem text (b : Bytes) : Spells [.text b] [.text b] := fun _ _ _ => rfl

theorem closed (name : Bytes) (attributes : List Attribute) (trail : Bytes) :
    Spells [.startTag name attributes trail true] [.element name attributes []] := fun _ _ _ => rfl

theorem append {ts us : List Token} {ns ms : List Node} (first : Spells ts ns)
    (second : Spells us ms) : Spells (ts ++ us) (ns ++ ms) := by
  intro opened done rest
  rw [List.append_assoc, first, second, List.reverse_append, List.append_assoc]

theorem cons {t : Token} {us : List Token} {n : Node} {ms : List Node} (first : Spells [t] [n])
    (second : Spells us ms) : Spells (t :: us) (n :: ms) :=
  first.append second

theorem element {ts : List Token} {children : List Node} (inside : Spells ts children) (name : Bytes)
    (attributes : List Attribute) (trail : Bytes) :
    Spells (.startTag name attributes trail false :: (ts ++ [.endTag name]))
      [.element name attributes children] := by
  intro opened done rest
  rw [List.cons_append, List.append_assoc]
  calc nodesAfter? opened done (.startTag name attributes trail false :: (ts ++ ([.endTag name] ++ rest)))
      = nodesAfter? (⟨name, attributes, done⟩ :: opened) [] (ts ++ ([.endTag name] ++ rest)) := rfl
    _ = nodesAfter? (⟨name, attributes, done⟩ :: opened) (children.reverse ++ [])
          (.endTag name :: rest) := inside _ _ _
    _ = nodesAfter? opened (.element name attributes children :: done) rest := by
      simp [nodesAfter?]

end Spells

theorem nodes?_of_spells {ts : List Token} {ns : List Node} (h : Spells ts ns) :
    nodes? ts = some ns := by
  have read := h [] [] []
  rw [List.append_nil, List.append_nil] at read
  simp [nodes?, read, nodesAfter?]

end KeyExport.Markup
