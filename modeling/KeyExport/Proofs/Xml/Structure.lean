import KeyExport.Proofs.Markup.Tree
import KeyExport.Proofs.Sink.Accepting
import KeyExport.Proofs.Xml.Legibility
import Mathlib.Data.List.Forall2

/-!
# The structure of documents

A document, read as a tree, is one root element after at most a declaration and a comment. The children
of the root are the elements of the keys in their order, each with an identification, perhaps a value
attribute, and at most a value and a comment inside. All that stands between these are blanks. So it is
whenever the document is complete and its attributes hold nothing that would have to be escaped.
-/

namespace KeyExport

/-- Nothing in the text would have to be escaped in an attribute. -/
def Bare (s : String) : Prop := '"' ∉ s.toList ∧ '<' ∉ s.toList ∧ '&' ∉ s.toList

instance (s : String) : Decidable (Bare s) :=
  inferInstanceAs (Decidable ('"' ∉ s.toList ∧ '<' ∉ s.toList ∧ '&' ∉ s.toList))

theorem Key.mem_qualifiedName {k : Key} {numeric : Bool} {c : Char}
    (mem : c ∈ (k.qualifiedName numeric).toList) :
    c ∈ k.name.toList ∨ ∃ owner, k.owner = some owner ∧ c ∈ (k.ownerText owner numeric).toList := by
  unfold qualifiedName at mem
  split at mem
  · next rest owner front owned =>
    have whole := Text.dropFront?_eq_some_iff.mp front
    rw [String.toList_append, String.toList_append, String.toList_ofList, List.mem_append,
      List.mem_append] at mem
    rw [whole, List.mem_append]
    rcases mem with (space | owner) | rest
    · exact .inl (.inl space)
    · exact .inr ⟨_, owned, owner⟩
    · exact .inl (.inr rest)
  · exact .inl mem

end KeyExport

namespace KeyExport.Xml

open Bytes (ofString ofNat)
open Markup

/-! ## What an attribute may hold -/

/-- No byte of an attribute's value would have to be escaped. -/
def Quiet (b : Bytes) : Prop := ∀ x ∈ b, x ∉ ofString "\"<&"

instance (b : Bytes) : Decidable (Quiet b) := inferInstanceAs (Decidable (∀ x ∈ b, x ∉ ofString "\"<&"))

theorem quiet_of_bare {s : String} (bare : Bare s) : Quiet (ofString s) := by
  have absent : ∀ c, IsAscii c → c ∉ s.toList → asciiByte c ∉ ofString s :=
    fun c ascii => mt (Bytes.asciiByte_mem_ofChars_iff ascii).mp
  intro x mem reserved
  have bytes : ofString "\"<&" = [asciiByte '"', asciiByte '<', asciiByte '&'] := by decide
  rw [bytes] at reserved
  simp only [List.mem_cons, List.not_mem_nil, or_false] at reserved
  rcases reserved with rfl | rfl | rfl
  · exact absent '"' (by decide) bare.1 mem
  · exact absent '<' (by decide) bare.2.1 mem
  · exact absent '&' (by decide) bare.2.2 mem

theorem Quiet.quote_notInfix {b : Bytes} (quiet : Quiet b) : ¬ofString "\"" <:+: b := by
  intro inside
  exact quiet 0x22 (inside.subset (by decide)) (by decide)

/-- Nothing in the key would have to be escaped where it is written, nor in its owner. -/
structure Clean (k : Key) : Prop where
  name : Bare k.name
  owner : ∀ s, k.owner = some s → Bare s
  short : ∀ s, k.value = .text s → s.utf8ByteSize ≤ 16 ∧ '\n' ∉ s.toList → Bare s
  long : ∀ s, k.value = .text s → ¬(s.utf8ByteSize ≤ 16 ∧ '\n' ∉ s.toList) →
    ¬"]]>".toList <:+: s.toList
  comment : ∀ c, k.comment = some c → ¬"]]>".toList <:+: c.toList

theorem Clean.unescaped {k : Key} (clean : Clean k) : Unescaped k :=
  ⟨clean.name.1, fun s value fits => (clean.short s value fits).1, clean.long, clean.comment⟩

theorem bare_numeral (n : Nat) : Bare (Text.numeral n) := by
  have digits : ∀ c ∈ (Text.numeral n).toList, c.isDigit = true := by
    intro c mem
    rw [Text.numeral, String.toList_ofList] at mem
    exact Nat.isDigit_of_mem_toDigits (by decide) (by decide) mem
  refine ⟨fun mem => ?_, fun mem => ?_, fun mem => ?_⟩
  · exact absurd (digits _ mem) (by decide)
  · exact absurd (digits _ mem) (by decide)
  · exact absurd (digits _ mem) (by decide)

theorem Clean.bare_qualifiedName {k : Key} (clean : Clean k) (numeric : Bool) :
    Bare (k.qualifiedName numeric) := by
  have owners : ∀ owner, k.owner = some owner → Bare (k.ownerText owner numeric) := by
    intro owner owned
    unfold Key.ownerText
    split
    · exact bare_numeral _
    · exact clean.owner owner owned
  have absent : ∀ c, c ∉ k.name.toList →
      (∀ owner, k.owner = some owner → c ∉ (k.ownerText owner numeric).toList) →
      c ∉ (k.qualifiedName numeric).toList := by
    intro c name owner mem
    rcases Key.mem_qualifiedName mem with inside | ⟨o, owned, inside⟩
    · exact name inside
    · exact owner o owned inside
  refine ⟨absent _ clean.name.1 ?_, absent _ clean.name.2.1 ?_, absent _ clean.name.2.2 ?_⟩
  · exact fun o owned => (owners o owned).1
  · exact fun o owned => (owners o owned).2.1
  · exact fun o owned => (owners o owned).2.2

theorem Clean.quiet_shown {k : Key} (clean : Clean k) (parent : Option Parent) (o : Options) :
    Quiet (Naming.shown k parent o).identifier.value := by
  unfold Naming.shown
  split
  · next rest found =>
    obtain ⟨p, -, cut⟩ := Option.bind_eq_some_iff.mp found
    intro x mem
    exact quiet_of_bare clean.name x ((suffix_of_basename? cut).subset mem)
  · apply quiet_of_bare
    split
    · exact clean.bare_qualifiedName o.numbers
    · exact clean.name

/-- Attributes as they have to stand in a tag: apart, each name once, and with nothing to escape. -/
structure Tidy (attributes : List Attribute) : Prop where
  separated : ∀ a ∈ attributes, a.lead ≠ [] ∧ Blank a.lead
  distinct : (attributes.map Attribute.name).Nodup
  quiet : ∀ a ∈ attributes, Quiet a.value

theorem tidy_nil : Tidy [] := ⟨by simp, by simp, by simp⟩

theorem tidy_singleton {a : Attribute} (lead : a.lead ≠ []) (blank : Blank a.lead)
    (quiet : Quiet a.value) : Tidy [a] := by
  refine ⟨?_, List.nodup_singleton _, ?_⟩
  · simpa using ⟨lead, blank⟩
  · simpa using quiet

theorem Tidy.append {as bs : List Attribute} (first : Tidy as) (second : Tidy bs)
    (apart : ∀ a ∈ as, ∀ b ∈ bs, a.name ≠ b.name) : Tidy (as ++ bs) := by
  refine ⟨?_, ?_, ?_⟩
  · exact List.forall_mem_append.mpr ⟨first.separated, second.separated⟩
  · rw [List.map_append, List.nodup_append]
    refine ⟨first.distinct, second.distinct, ?_⟩
    intro name mem other inside
    obtain ⟨a, here, rfl⟩ := List.mem_map.mp mem
    obtain ⟨b, there, rfl⟩ := List.mem_map.mp inside
    exact apart a here b there
  · exact List.forall_mem_append.mpr ⟨first.quiet, second.quiet⟩

/-! ## Elements of keys -/

/-- One identification, at most one value, and nothing else. -/
structure KeyAttributes (id : Naming) (attributes : List Attribute) : Prop where
  tidy : Tidy attributes
  identified : attributes.filter (fun a => a.name ∈ [ofString "name", ofString "basename"]) =
    [id.identifier]
  valued : (attributes.filter (·.name = ofString "value")).length ≤ 1
  known : ∀ a ∈ attributes, a.name ∈ [ofString "name", ofString "basename", ofString "value"]

/-- The child that a value has in the element of its key. -/
inductive ValueChild : Value → Option Node → Prop where
  | absent : ValueChild .absent none
  | short {s : String} (fits : fitsAttribute s = true) : ValueChild (.text s) none
  | long {s : String} (long : fitsAttribute s = false) :
    ValueChild (.text s) (some (.element (ofString "value") [] [.data (ofString s)]))
  | nothing : ValueChild (.binary []) (some (.element (ofString "value") [] []))
  | binary {data before after : Bytes} (front : Blank before) (back : Blank after) :
    ValueChild (.binary data)
      (some (.element (ofString "value") [] [.text (before ++ (Base64.encode data ++ after))]))

def commentNode (s : String) : Node := .element (ofString "comment") [] [.data (ofString s)]

/-- The element of a key; its children are at most a value and then at most a comment. -/
structure KeyElement (k : Key) (id : Naming) (n : Node) : Prop where
  name : n.name? = some (ofString "key")
  attributes : KeyAttributes id n.attributes
  children : ∃ value, ValueChild k.value value ∧
    solid n.children = value.toList ++ (k.comment.map commentNode).toList

theorem Naming.name_identifier (id : Naming) :
    id.identifier.name = ofString "name" ∨ id.identifier.name = ofString "basename" := by
  cases id with
  | name s => exact .inl rfl
  | basename rest => exact .inr rfl

theorem tidy_identifier {id : Naming} (quiet : Quiet id.identifier.value) : Tidy [id.identifier] := by
  have legible := legible_identifier quiet.quote_notInfix
  exact tidy_singleton legible.separated legible.lead quiet

theorem tidy_valueToken (condensed : Bool) {s : String} (bare : Bare s) :
    Tidy [valueToken condensed s] := by
  have legible := legible_valueToken condensed bare.1
  exact tidy_singleton legible.separated legible.lead (quiet_of_bare bare)

theorem keyAttributes_of_values {id : Naming} (quiet : Quiet id.identifier.value)
    {values : List Attribute} (tidy : Tidy values) (single : values.length ≤ 1)
    (names : ∀ a ∈ values, a.name = ofString "value") : KeyAttributes id (id.identifier :: values) := by
  have first : id.identifier.name ∈ [ofString "name", ofString "basename"] := by
    simpa using id.name_identifier
  have apart : id.identifier.name ≠ ofString "value" := by
    intro same
    exact absurd (same ▸ first) (by decide)
  refine ⟨?_, ?_, ?_, ?_⟩
  · refine (tidy_identifier quiet).append tidy fun a mem b value => ?_
    rwa [List.mem_singleton.mp mem, names b value]
  · rw [List.filter_cons_of_pos (by simpa using first), List.filter_eq_nil_iff.mpr]
    intro a mem
    rw [names a mem]
    decide
  · rw [List.filter_cons_of_neg (by simpa using apart)]
    exact Nat.le_trans (List.length_filter_le _ _) single
  · rw [List.forall_mem_cons]
    exact ⟨List.mem_append_left [ofString "value"] first, fun a mem => by simp [names a mem]⟩

theorem keyAttributes_identifier {id : Naming} (quiet : Quiet id.identifier.value) :
    KeyAttributes id [id.identifier] :=
  keyAttributes_of_values quiet tidy_nil (Nat.zero_le 1) (by simp)

theorem keyAttributes_value {id : Naming} (quiet : Quiet id.identifier.value) (condensed : Bool)
    {s : String} (bare : Bare s) : KeyAttributes id [id.identifier, valueToken condensed s] :=
  keyAttributes_of_values quiet (tidy_valueToken condensed bare) (Nat.le_refl 1)
    (List.forall_mem_singleton.mpr rfl)

/-! ## The tree of an element -/

theorem spells_gap (condensed : Bool) {s : String} (blank : Blank (ofString s)) :
    ∃ ns, Spells (gap condensed s) ns ∧ solid ns = [] := by
  cases condensed with
  | true => exact ⟨[], Spells.nil, rfl⟩
  | false => exact ⟨[.text (ofString s)], Spells.text _, solid_text blank⟩

theorem blank_append {s t : String} (first : Blank (ofString s)) (second : Blank (ofString t)) :
    Blank (ofString (s ++ t)) := by
  intro x mem
  rw [Bytes.ofString_append, List.mem_append] at mem
  rcases mem with before | after
  · exact first x before
  · exact second x after

theorem spells_data (name : String) (b : Bytes) :
    Spells [childTag name, .data b, endTag name] [.element (ofString name) [] [.data b]] :=
  (Spells.data b).element _ _ _

/-- Up to the end tag of a key there is nothing more than its comment. -/
theorem spells_endingTokens (condensed : Bool) (before : String) (blank : Blank (ofString before))
    (comment : Option String) :
    ∃ ts ns, endingTokens condensed before comment = ts ++ endTag "key" :: gap condensed "\n\n" ∧
      Spells ts ns ∧ solid ns = (comment.map commentNode).toList := by
  cases comment with
  | none =>
    obtain ⟨ns, read, nothing⟩ := spells_gap condensed (blank_append blank (t := "\n") (by decide))
    exact ⟨_, ns, rfl, read, nothing⟩
  | some c =>
    obtain ⟨ns, read, nothing⟩ :=
      spells_gap condensed (blank_append blank (t := "\n" ++ "     ") (by decide))
    obtain ⟨ms, last, nothing'⟩ := spells_gap condensed (s := "\n") (by decide)
    refine ⟨_, ns ++ (commentNode c :: ms), rfl, ?_, ?_⟩
    · exact read.append ((spells_data "comment" (ofString c)).append last)
    · simp [nothing, nothing', commentNode]

/-- An element that is not closed by its tag holds what stands in it and its comment. -/
theorem spells_openKey (condensed : Bool) (attributes : List Attribute) {ts : List Token}
    {ns : List Node} (inside : Spells ts ns) (before : String) (blank : Blank (ofString before))
    (comment : Option String) :
    ∃ children after,
      Spells (keyTag attributes false :: (ts ++ endingTokens condensed before comment))
        (.element (ofString "key") attributes children :: after) ∧
      solid after = [] ∧ solid children = solid ns ++ (comment.map commentNode).toList := by
  obtain ⟨us, ms, shape, read, last⟩ := spells_endingTokens condensed before blank comment
  obtain ⟨after, follows, nothing⟩ := spells_gap condensed (s := "\n\n") (by decide)
  refine ⟨ns ++ ms, after, ?_, nothing, ?_⟩
  · have whole := ((inside.append read).element (ofString "key") attributes []).append follows
    rw [shape]
    simpa [keyTag, endTag] using whole
  · rw [solid_append, last]

theorem spells_textTokens (condensed : Bool) {s : String} (long : fitsAttribute s = false) :
    ∃ ns value, Spells (textTokens condensed s) ns ∧ solid ns = [value] ∧
      ValueChild (.text s) (some value) := by
  obtain ⟨ns, read, nothing⟩ := spells_gap condensed (s := "\n\n     ") (by decide)
  refine ⟨ns ++ [.element (ofString "value") [] [.data (ofString s)]], _, ?_, ?_, .long long⟩
  · exact read.append (spells_data "value" (ofString s))
  · simp [nothing]

theorem spells_binaryTokens (condensed : Bool) (data : Bytes) :
    ∃ ns value, Spells (binaryTokens condensed data) ns ∧ solid ns = [value] ∧
      ValueChild (.binary data) (some value) := by
  obtain ⟨ns, read, nothing⟩ := spells_gap condensed (s := "\n\n     ") (by decide)
  suffices payload : ∃ inside, Spells (payload condensed (Base64.encode data)) inside ∧
      ValueChild (.binary data) (some (.element (ofString "value") [] inside)) by
    obtain ⟨inside, within, child⟩ := payload
    refine ⟨ns ++ [.element (ofString "value") [] inside], _, ?_, ?_, child⟩
    · have whole := read.append (within.element (ofString "value") [] [])
      simpa [binaryTokens, childTag, endTag] using whole
    · simp [nothing]
  cases condensed with
  | true =>
    by_cases empty : Base64.encode data = []
    · obtain rfl : data = [] := Base64.encode_injective empty
      exact ⟨[], Spells.nil, .nothing⟩
    · refine ⟨[.text (Base64.encode data)], ?_, ?_⟩
      · rw [payload, if_pos rfl, if_neg empty]
        exact Spells.text _
      · have blank : Blank [] := by decide
        simpa using ValueChild.binary blank blank
  | false => exact ⟨_, Spells.text _, .binary (by decide) (by decide)⟩

/-- Around a value that has an element of its own there are a tag without a value and the comment. -/
theorem spells_around_value {k : Key} {id : Naming} (identified : KeyAttributes id [id.identifier])
    (condensed : Bool) {ts : List Token} {ns : List Node} {value : Node} (inside : Spells ts ns)
    (single : solid ns = [value]) (child : ValueChild k.value (some value)) :
    ∃ n after, Spells (keyTag [id.identifier] false :: (ts ++ endingTokens condensed "" k.comment))
        (n :: after) ∧ solid after = [] ∧ KeyElement k id n := by
  obtain ⟨children, after, read, nothing, content⟩ :=
    spells_openKey condensed [id.identifier] inside "" (by decide) k.comment
  refine ⟨_, after, read, nothing, rfl, identified, some value, child, ?_⟩
  rw [Node.children, content, single, Option.toList_some]

/-- Without such a value there are all attributes and the comment, if there is one. -/
theorem spells_around_comment {k : Key} {id : Naming} {attributes : List Attribute}
    (identified : KeyAttributes id attributes) (child : ValueChild k.value none) (condensed : Bool)
    {c : String} (comment : k.comment = some c) :
    ∃ n after, Spells (keyTag attributes false :: endingTokens condensed "\n" (some c)) (n :: after) ∧
      solid after = [] ∧ KeyElement k id n := by
  obtain ⟨children, after, read, nothing, content⟩ :=
    spells_openKey condensed attributes Spells.nil "\n" (by decide) (some c)
  refine ⟨_, after, read, nothing, rfl, identified, none, child, ?_⟩
  rw [Node.children, content, comment, solid_nil, Option.toList_none]

theorem spells_alone {k : Key} {id : Naming} {attributes : List Attribute}
    (identified : KeyAttributes id attributes) (child : ValueChild k.value none) (condensed : Bool)
    {s : String} (blank : Blank (ofString s)) (comment : k.comment = none) :
    ∃ n after, Spells (keyTag attributes true :: gap condensed s) (n :: after) ∧
      solid after = [] ∧ KeyElement k id n := by
  obtain ⟨after, follows, nothing⟩ := spells_gap condensed blank
  refine ⟨_, after, (Spells.closed _ _ _).cons follows, nothing, rfl, identified, none, child, ?_⟩
  rw [Node.children, comment]
  rfl

/-- An element is read as a single node and blanks after it. -/
theorem spells_elementTokens {k : Key} (clean : Clean k) {id : Naming}
    (quiet : Quiet id.identifier.value) (condensed : Bool) :
    ∃ n after, Spells (elementTokens id condensed k.value k.comment) (n :: after) ∧
      solid after = [] ∧ KeyElement k id n := by
  have identified := keyAttributes_identifier quiet
  unfold elementTokens
  cases value : k.value with
  | absent =>
    have child : ValueChild k.value none := value ▸ .absent
    cases comment : k.comment with
    | none => exact spells_alone identified child condensed (by decide) comment
    | some c => exact spells_around_comment identified child condensed comment
  | text s =>
    dsimp only
    cases fits : fitsAttribute s with
    | true =>
      have child : ValueChild k.value none := value ▸ .short fits
      have attributed := keyAttributes_value quiet condensed
        (clean.short s value (fitsAttribute_iff.mp fits))
      cases comment : k.comment with
      | none => exact spells_alone attributed child condensed (by decide) comment
      | some c => exact spells_around_comment attributed child condensed comment
    | false =>
      obtain ⟨ns, node, inside, single, child⟩ := spells_textTokens condensed fits
      exact spells_around_value identified condensed inside single (value ▸ child)
  | binary data =>
    obtain ⟨ns, node, inside, single, child⟩ := spells_binaryTokens condensed data
    exact spells_around_value identified condensed inside single (value ▸ child)

/-! ## Documents -/

/-- What may stand before the root: a declaration, and the number of keys in a comment. -/
def prologNodes (o : Options) (count : Nat) : List Node :=
  if o.emitsXmlHeader then
    .declaration (ofString "xml version=\"1.0\" encoding=\"UTF-8\"") ::
      if o.condensed then []
      else
        [.text (ofString "\n"),
          .comment (ofString " Generated by keystream. Total of " ++ (ofNat count ++ ofString " keys. ")),
          .text (ofString "\n")]
  else []

/-- The root holds one element for each key, in their order, and nothing else but blanks. -/
structure RootElement (ks : KeySet) (o : Options) (n : Node) : Prop where
  name : n.name? = some (ofString "keyset")
  tidy : Tidy n.attributes
  count : (solid n.children).length = ks.size
  elements : List.Forall₂
    (fun k e => ∃ id, Naming.ofKey k (documentParent ks o) o = .ok id ∧ KeyElement k id e)
    ks.keys (solid n.children)

theorem spells_elements (condensed : Bool) {id : Key → Naming} {keys : List Key}
    (clean : ∀ k ∈ keys, Clean k) (quiet : ∀ k ∈ keys, Quiet (id k).identifier.value) :
    ∃ ns, Spells (keys.flatMap fun k => elementTokens (id k) condensed k.value k.comment) ns ∧
      List.Forall₂ (fun k e => KeyElement k (id k) e) keys (solid ns) := by
  induction keys with
  | nil => exact ⟨[], Spells.nil, .nil⟩
  | cons k keys ih =>
    rw [List.forall_mem_cons] at clean quiet
    obtain ⟨n, after, read, nothing, first⟩ := spells_elementTokens clean.1 quiet.1 condensed
    obtain ⟨ns, others, rest⟩ := ih clean.2 quiet.2
    refine ⟨n :: after ++ ns, read.append others, ?_⟩
    rw [List.cons_append, solid_cons_of_name? first.name, solid_append, nothing]
    exact .cons first rest

/-- The attribute that names the parent, if there is one. -/
def parentAttribute (blanks : String) (parent : Option String) : List Attribute :=
  parent.toList.map fun p => named (blanks ++ "        ") "parent" (ofString p)

theorem rootTag_eq (schema : List Attribute) (blanks : String) (parent : Option String) :
    ∃ trail, rootTag schema blanks parent =
      .startTag (ofString "keyset") (schema ++ parentAttribute blanks parent) trail false := by
  cases parent with
  | none => exact ⟨ofString blanks, by simp [rootTag, parentAttribute]⟩
  | some p => exact ⟨[], rfl⟩

theorem Tidy.append_parent {schema : List Attribute} (tidy : Tidy schema)
    (fresh : ofString "parent" ∉ schema.map Attribute.name) {blanks : String}
    (blank : Blank (ofString blanks)) {parent : Option String}
    (quiet : ∀ p, parent = some p → Quiet (ofString p)) :
    Tidy (schema ++ parentAttribute blanks parent) := by
  cases parent with
  | none => simpa [parentAttribute] using tidy
  | some p =>
    have lead : ofString (blanks ++ "        ") ≠ [] := by
      rw [Bytes.ofString_append]
      exact List.append_ne_nil_of_right_ne_nil _ (by decide)
    have last := tidy_singleton (a := named (blanks ++ "        ") "parent" (ofString p)) lead
      (blank_append blank (by decide)) (quiet p rfl)
    refine tidy.append last fun a mem b parent same => fresh ?_
    rw [List.mem_singleton.mp parent] at same
    exact List.mem_map.mpr ⟨a, mem, same⟩

theorem tidy_schemaTokens (condensed : Bool) : Tidy (schemaTokens condensed) := by
  refine ⟨?_, ?_, ?_⟩
  · intro a mem
    have legible := legible_schemaTokens condensed a mem
    exact ⟨legible.separated, legible.lead⟩
  · cases condensed <;> decide +kernel
  · cases condensed <;> decide +kernel

theorem Clean.quiet_parent {ks : KeySet} {o : Options} {p : String} (h : parent? ks o = some p)
    (clean : ∀ k ∈ ks.keys, Clean k) : Quiet (ofString p) := by
  obtain ⟨k, mem⟩ := exists_key_of_parent? h
  have front := (prefix_of_parent? h mem).subset
  obtain ⟨quote, less, ampersand⟩ := (clean k mem).name
  exact quiet_of_bare ⟨fun x => quote (front x), fun x => less (front x), fun x => ampersand (front x)⟩

/-- Before the root there is the prolog; the root's tag is tidy, and a line ends after it. -/
theorem spells_openingTokens {ks : KeySet} {o : Options} (clean : ∀ k ∈ ks.keys, Clean k) :
    ∃ prolog attributes trail,
      openingTokens ks o =
        prolog ++ [.startTag (ofString "keyset") attributes trail false, .text (ofString "\n")] ∧
      Spells prolog (prologNodes o ks.size) ∧ Tidy attributes := by
  have parent : ∀ p, parent? ks o = some p → Quiet (ofString p) :=
    fun _ found => Clean.quiet_parent found clean
  unfold openingTokens prologNodes
  cases o.emitsXmlHeader with
  | false =>
    obtain ⟨trail, shape⟩ := rootTag_eq [] "" (parent? ks o)
    refine ⟨[], [] ++ parentAttribute "" (parent? ks o), trail, ?_, Spells.nil, ?_⟩
    · rw [← shape]
      rfl
    · exact tidy_nil.append_parent (by simp) (by decide) parent
  | true =>
    obtain ⟨trail, shape⟩ :=
      rootTag_eq (schemaTokens o.condensed) (if o.condensed then "" else "\n") (parent? ks o)
    refine ⟨prologTokens o.condensed ks.size,
      schemaTokens o.condensed ++
        parentAttribute (if o.condensed then "" else "\n") (parent? ks o),
      trail, ?_, ?_, ?_⟩
    · rw [← shape]
      rfl
    · cases o.condensed with
      | true => exact Spells.declaration _
      | false =>
        exact (Spells.declaration _).cons ((Spells.text _).cons ((Spells.comment _).cons (Spells.text _)))
    · refine (tidy_schemaTokens o.condensed).append_parent ?_ ?_ parent
      · generalize o.condensed = condensed
        decide +revert
      · cases o.condensed <;> decide

/-- A complete document consists of tokens that are read as a tree with a single root, which holds the
elements of all keys. -/
theorem document_is_one_root {ks : KeySet} {o : Options}
    (complete : ∃ n, ((document ks o).writeTo ({} : Memory)).1 = .ok n)
    (clean : ∀ k ∈ ks.keys, Clean k) :
    ∃ ts root,
      scan ((document ks o).writeTo ({} : Memory)).2.contents = some ts ∧
      ((document ks o).writeTo ({} : Memory)).2.contents = ts.flatMap Token.bytes ∧
      nodes? ts = some (prologNodes o ks.size ++ [root, .text (ofString "\n")]) ∧
      RootElement ks o root := by
  have complete := Memory.writeTo_ok_iff.mp complete
  have quiet : ∀ k ∈ ks.keys, Quiet (Naming.shown k (documentParent ks o) o).identifier.value :=
    fun k mem => (clean k mem).quiet_shown _ o
  have named : ∀ k ∈ ks.keys, Naming.ofKey k (documentParent ks o) o =
      .ok (Naming.shown k (documentParent ks o) o) := by
    intro k mem
    obtain ⟨id, found⟩ := key_complete (complete_keys complete k mem)
    rw [found, Naming.eq_shown_of_ofKey found]
  obtain ⟨prolog, attributes, trail, opening, before, tidy⟩ := spells_openingTokens (o := o) clean
  obtain ⟨ns, read, elements⟩ := spells_elements o.condensed clean quiet
  have inside := (Spells.text (ofString "\n")).cons read
  have content : solid (.text (ofString "\n") :: ns) = solid ns :=
    List.filter_cons_of_neg (by decide)
  refine ⟨shownTokens ks o, .element (ofString "keyset") attributes (.text (ofString "\n") :: ns),
    ?_, ?_, nodes?_of_spells ?_, ?_⟩
  · rw [(Memory.writeTo_eq _ _).2]
    exact scan_shown complete (fun k mem => (clean k mem).unescaped)
      fun k mem => (quiet k mem).quote_notInfix
  · rw [(Memory.writeTo_eq _ _).2, bytes_shownTokens complete]
    rfl
  · have whole := before.append
      ((inside.element (ofString "keyset") attributes trail).append (Spells.text (ofString "\n")))
    rw [shownTokens, opening]
    simpa [endTag] using whole
  · refine ⟨rfl, tidy, ?_, ?_⟩
    · rw [Node.children, content]
      exact elements.length_eq.symm
    · rw [Node.children, content]
      exact ((List.forall₂_and_left _ _).mpr ⟨named, elements⟩).imp fun k e both => ⟨_, both⟩

/-- A value and a comment that look like the end of their elements are read as what they are. -/
theorem root_around_quoted_markup :
    let ks : KeySet := ⟨[
      { name := "user:/a", value := .binary [1, 2], comment := some "</comment>", owner := some "o" },
      { name := "user:/a/b", value := .text "</value></key><key name=\"c\"/>" },
      { name := "user:/a/c", value := .text "short" }], by decide⟩
    let o : Options := { hierarchical := true, fullName := true, header := true }
    ((∃ n, ((document ks o).writeTo ({} : Memory)).1 = .ok n) ∧ ∀ k ∈ ks.keys, Clean k) ∧
      ∃ ts root,
        scan ((document ks o).writeTo ({} : Memory)).2.contents = some ts ∧
        ((document ks o).writeTo ({} : Memory)).2.contents = ts.flatMap Token.bytes ∧
        nodes? ts = some (prologNodes o ks.size ++ [root, .text (ofString "\n")]) ∧
        RootElement ks o root := by
  intro ks o
  have complete : ∃ n, ((document ks o).writeTo ({} : Memory)).1 = .ok n :=
    Memory.writeTo_ok_iff.mpr (by decide +kernel)
  have clean : ∀ k ∈ ks.keys, Clean k := by
    intro k mem
    simp only [ks, List.mem_cons, List.not_mem_nil, or_false] at mem
    rcases mem with rfl | rfl | rfl
    · refine ⟨by decide, ?_, by simp, by simp, ?_⟩
      · rintro s ⟨⟩
        decide
      · rintro c ⟨⟩
        simp [List.infix_cons_iff]
    · refine ⟨by decide, by simp, ?_, ?_, by simp⟩
      · rintro s ⟨⟩ fits
        exact absurd fits (by decide)
      · rintro s ⟨⟩ -
        simp [List.infix_cons_iff]
    · refine ⟨by decide, by simp, ?_, ?_, by simp⟩
      · rintro s ⟨⟩ -
        decide
      · rintro s ⟨⟩ long
        exact absurd (by decide) long
  exact ⟨⟨complete, clean⟩, document_is_one_root complete clean⟩

end KeyExport.Xml
