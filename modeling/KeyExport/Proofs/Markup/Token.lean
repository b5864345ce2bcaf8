import KeyExport.Proofs.Markup.Delimited

/-!
# Markup tokens

`scan` reads bytes as markup: declarations, comments, start and end tags with their attributes,
character data that is taken as it is, and text between all these. Tokens keep every byte, so what is
read can be written again: a token and the rest spell the bytes it was read from, and the rest is
shorter.
-/

namespace KeyExport.Markup

open Bytes (ofString)
open Text (dropFront?)

def isBlank (x : UInt8) : Bool := x == 0x20 || x == 0x09 || x == 0x0A || x == 0x0D

def Blank (b : Bytes) : Prop := ∀ x ∈ b, isBlank x = true

instance (b : Bytes) : Decidable (Blank b) :=
  decidable_of_iff (b.all isBlank = true) List.all_eq_true

/-- Letters and the colon. -/
def isNameByte (x : UInt8) : Bool :=
  (0x41 ≤ x && x ≤ 0x5A) || (0x61 ≤ x && x ≤ 0x7A) || x == 0x3A

theorem isBlank_eq_false {x : UInt8} (h : isNameByte x = true) : isBlank x = false := by
  apply Bool.eq_false_iff.mpr
  intro blank
  simp only [isBlank, Bool.or_eq_true, beq_iff_eq] at blank
  rcases blank with ((rfl | rfl) | rfl) | rfl
  all_goals exact absurd h (by decide)

/-- An attribute with the blanks before it. -/
structure Attribute where
  lead : Bytes
  name : Bytes
  value : Bytes
deriving DecidableEq

def Attribute.bytes (a : Attribute) : Bytes :=
  a.lead ++ (a.name ++ (ofString "=\"" ++ (a.value ++ ofString "\"")))

def tagEnd (closed : Bool) : Bytes := ofString (if closed then "/>" else ">")

inductive Token where
  | declaration (b : Bytes)
  | comment (b : Bytes)
  | data (b : Bytes)
  | startTag (name : Bytes) (attributes : List Attribute) (trail : Bytes) (closed : Bool)
  | endTag (name : Bytes)
  | text (b : Bytes)
deriving DecidableEq

namespace Token

def isText (t : Token) : Bool := t matches .text _

def bytes : Token → Bytes
  | declaration b => ofString "<?" ++ (b ++ ofString "?>")
  | comment b => ofString "<!--" ++ (b ++ ofString "-->")
  | data b => ofString "<![CDATA[" ++ (b ++ ofString "]]>")
  | startTag name attributes trail closed =>
    ofString "<" ++ (name ++ (attributes.flatMap Attribute.bytes ++ (trail ++ tagEnd closed)))
  | endTag name => ofString "</" ++ (name ++ ofString ">")
  | text b => b

end Token

/-! ## Reading -/

def attribute? (b : Bytes) : Option (Attribute × Bytes) :=
  let lead := b.takeWhile isBlank
  let b := b.dropWhile isBlank
  let name := b.takeWhile isNameByte
  if lead = [] ∨ name = [] then none
  else
    (dropFront? (ofString "=\"") (b.dropWhile isNameByte)).bind fun b =>
      (upTo? (ofString "\"") b).map fun (value, rest) => (⟨lead, name, value⟩, rest)

theorem eq_of_attribute? {b rest : Bytes} {a : Attribute} (h : attribute? b = some (a, rest)) :
    b = a.bytes ++ rest := by
  unfold attribute? at h
  dsimp only at h
  split at h
  · simp at h
  · obtain ⟨quoted, front, h⟩ := Option.bind_eq_some_iff.mp h
    obtain ⟨⟨value, _⟩, cut, e⟩ := Option.map_eq_some_iff.mp h
    cases e
    have parts : b = b.takeWhile isBlank ++ ((b.dropWhile isBlank).takeWhile isNameByte ++
        (b.dropWhile isBlank).dropWhile isNameByte) := by
      rw [List.takeWhile_append_dropWhile, List.takeWhile_append_dropWhile]
    rw [Text.dropFront?_eq_some_iff.mp front, eq_of_upTo? cut] at parts
    apply parts.trans
    simp [Attribute.bytes]

theorem attribute?_length_lt {b rest : Bytes} {a : Attribute} (h : attribute? b = some (a, rest)) :
    rest.length < b.length := by
  rw [eq_of_attribute? h, Attribute.bytes]
  have quote : (ofString "\"").length = 1 := by decide
  simp only [List.length_append, quote]
  omega

/-- All attributes at the front. -/
def attributes (b : Bytes) : List Attribute × Bytes :=
  match _h : attribute? b with
  | none => ([], b)
  | some (a, rest) => (a :: (attributes rest).1, (attributes rest).2)
termination_by b.length
decreasing_by all_goals exact attribute?_length_lt _h

theorem eq_of_attributes (b : Bytes) :
    b = (attributes b).1.flatMap Attribute.bytes ++ (attributes b).2 := by
  fun_induction attributes b with
  | case1 => simp
  | case2 b a rest h ih =>
    rw [List.flatMap_cons, List.append_assoc, ← ih]
    exact eq_of_attribute? h

def delimited? (front stop : Bytes) (make : Bytes → Token) (b : Bytes) : Option (Token × Bytes) :=
  (dropFront? front b).bind fun b => (upTo? stop b).map fun (inside, rest) => (make inside, rest)

def startTag? (b : Bytes) : Option (Token × Bytes) :=
  (dropFront? (ofString "<") b).bind fun b =>
    let name := b.takeWhile isNameByte
    let read := attributes (b.dropWhile isNameByte)
    let trail := read.2.takeWhile isBlank
    let b := read.2.dropWhile isBlank
    if name = [] then none
    else
      ((dropFront? (tagEnd true) b).map fun rest => (.startTag name read.1 trail true, rest)) <|>
        (dropFront? (tagEnd false) b).map fun rest => (.startTag name read.1 trail false, rest)

def text? (b : Bytes) : Option (Token × Bytes) :=
  let text := b.takeWhile (· != 0x3C)
  if text = [] then none else some (.text text, b.dropWhile (· != 0x3C))

def token? (b : Bytes) : Option (Token × Bytes) :=
  delimited? (ofString "<?") (ofString "?>") .declaration b <|>
    delimited? (ofString "<!--") (ofString "-->") .comment b <|>
    delimited? (ofString "<![CDATA[") (ofString "]]>") .data b <|>
    delimited? (ofString "</") (ofString ">") .endTag b <|> startTag? b <|> text? b

theorem eq_of_delimited? {front stop b rest : Bytes} {make : Bytes → Token} {t : Token}
    (h : delimited? front stop make b = some (t, rest)) :
    ∃ inside, t = make inside ∧ b = front ++ (inside ++ stop) ++ rest := by
  obtain ⟨after, begun, h⟩ := Option.bind_eq_some_iff.mp h
  obtain ⟨⟨inside, _⟩, cut, e⟩ := Option.map_eq_some_iff.mp h
  cases e
  refine ⟨inside, rfl, ?_⟩
  rw [Text.dropFront?_eq_some_iff.mp begun, eq_of_upTo? cut]
  simp

theorem eq_of_startTag? {b rest : Bytes} {t : Token} (h : startTag? b = some (t, rest)) :
    b = t.bytes ++ rest ∧ t.bytes ≠ [] := by
  obtain ⟨after, begun, h⟩ := Option.bind_eq_some_iff.mp h
  rw [Text.dropFront?_eq_some_iff.mp begun]
  dsimp only at h
  split at h
  · simp at h
  have parts : after = after.takeWhile isNameByte ++
      ((attributes (after.dropWhile isNameByte)).1.flatMap Attribute.bytes ++
        ((attributes (after.dropWhile isNameByte)).2.takeWhile isBlank ++
          (attributes (after.dropWhile isNameByte)).2.dropWhile isBlank)) := by
    rw [List.takeWhile_append_dropWhile, ← eq_of_attributes, List.takeWhile_append_dropWhile]
  simp only [Option.orElse_eq_orElse, Option.orElse_eq_or, Option.or_eq_some_iff] at h
  rcases h with h | ⟨-, h⟩
  all_goals
    obtain ⟨_, closed, e⟩ := Option.map_eq_some_iff.mp h
    cases e
    rw [Text.dropFront?_eq_some_iff.mp closed] at parts
    refine ⟨?_, List.append_ne_nil_of_left_ne_nil (by decide) _⟩
    rw [Token.bytes]
    simpa using parts

theorem eq_of_text? {b rest : Bytes} {t : Token} (h : text? b = some (t, rest)) :
    b = t.bytes ++ rest ∧ t.bytes ≠ [] := by
  unfold text? at h
  dsimp only at h
  split at h
  · simp at h
  · next some =>
    cases h
    exact ⟨List.takeWhile_append_dropWhile.symm, some⟩

theorem eq_of_token? {b rest : Bytes} {t : Token} (h : token? b = some (t, rest)) :
    b = t.bytes ++ rest ∧ t.bytes ≠ [] := by
  simp only [token?, Option.orElse_eq_orElse, Option.orElse_eq_or, Option.or_eq_some_iff] at h
  rcases h with h | ⟨-, h | ⟨-, h | ⟨-, h | ⟨-, h | ⟨-, h⟩⟩⟩⟩⟩
  · obtain ⟨inside, rfl, e⟩ := eq_of_delimited? h
    exact ⟨e, List.append_ne_nil_of_left_ne_nil (by decide) _⟩
  · obtain ⟨inside, rfl, e⟩ := eq_of_delimited? h
    exact ⟨e, List.append_ne_nil_of_left_ne_nil (by decide) _⟩
  · obtain ⟨inside, rfl, e⟩ := eq_of_delimited? h
    exact ⟨e, List.append_ne_nil_of_left_ne_nil (by decide) _⟩
  · obtain ⟨inside, rfl, e⟩ := eq_of_delimited? h
    exact ⟨e, List.append_ne_nil_of_left_ne_nil (by decide) _⟩
  · exact eq_of_startTag? h
  · exact eq_of_text? h

theorem token?_length_lt {b rest : Bytes} {t : Token} (h : token? b = some (t, rest)) :
    rest.length < b.length := by
  obtain ⟨e, some⟩ := eq_of_token? h
  have positive := List.length_pos_iff.mpr some
  rw [e, List.length_append]
  omega

def scan (b : Bytes) : Option (List Token) :=
  if b = [] then some []
  else
    match _h : token? b with
    | none => none
    | some (t, rest) => (scan rest).map (t :: ·)
termination_by b.length
decreasing_by exact token?_length_lt _h

end KeyExport.Markup
