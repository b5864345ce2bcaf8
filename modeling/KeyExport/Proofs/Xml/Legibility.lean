import KeyExport.Proofs.Text.Base64
import KeyExport.Proofs.Xml.Markup

/-!
# Legible documents

When nothing in the keys looks like the end of what it stands in, the tokens of their document are
legible and no two texts stand side by side. So a scan of the document gives its tokens.
-/

namespace KeyExport.Xml

open Bytes (ofString ofNat)
open Markup

/-- Nothing in the key would have to be escaped where it is written. A text is an attribute when it has
at most sixteen bytes and stands on one line. -/
structure Unescaped (k : Key) : Prop where
  name : '"' ∉ k.name.toList
  short : ∀ s, k.value = .text s → s.utf8ByteSize ≤ 16 ∧ '\n' ∉ s.toList → '"' ∉ s.toList
  long : ∀ s, k.value = .text s → ¬(s.utf8ByteSize ≤ 16 ∧ '\n' ∉ s.toList) →
    ¬"]]>".toList <:+: s.toList
  comment : ∀ c, k.comment = some c → ¬"]]>".toList <:+: c.toList

theorem quote_notInfix {cs : List Char} (h : '"' ∉ cs) : ¬ofString "\"" <:+: Bytes.ofChars cs := by
  intro inside
  have found : ['"'] <:+: cs := Bytes.infix_of_infix_ofChars (isAscii_of_all (by decide)) inside
  exact h (found.subset List.mem_cons_self)

theorem dataEnd_notInfix {s : String} (h : ¬"]]>".toList <:+: s.toList) :
    ¬ofString "]]>" <:+: ofString s := by
  intro inside
  exact h (Bytes.infix_of_infix_ofChars (isAscii_of_all (by decide)) inside)

theorem legible_named {lead name : String} {value : Bytes}
    (blank : ofString lead ≠ [] ∧ Blank (ofString lead))
    (letters : IsName (ofString name)) (quiet : ¬ofString "\"" <:+: value) :
    (named lead name value).Legible :=
  ⟨blank.1, blank.2, letters, quiet⟩

theorem legible_identifier {naming : Naming} (quiet : ¬ofString "\"" <:+: naming.identifier.value) :
    naming.identifier.Legible := by
  cases naming with
  | name s => exact legible_named (by decide) (by decide) quiet
  | basename rest => exact legible_named (by decide) (by decide) quiet

theorem legible_valueToken (condensed : Bool) {s : String} (quiet : '"' ∉ s.toList) :
    (valueToken condensed s).Legible := by
  cases condensed with
  | true => exact legible_named (by decide) (by decide) (quote_notInfix quiet)
  | false => exact legible_named (by decide) (by decide) (quote_notInfix quiet)

theorem legible_keyTag {attributes : List Attribute} (legible : ∀ a ∈ attributes, a.Legible)
    (closed : Bool) : (keyTag attributes closed).Legible :=
  ⟨by decide, legible, by decide⟩

theorem legible_childTag {name : String} (letters : IsName (ofString name)) :
    (childTag name).Legible :=
  ⟨letters, by simp, by decide⟩

theorem legible_endTag {name : String} (letters : IsName (ofString name)) :
    (endTag name).Legible := by
  intro inside
  have letter := letters.all 0x3E (inside.subset List.mem_cons_self)
  exact absurd letter (by decide)

theorem legible_gap {s : String} (text : ofString s ≠ [] ∧ 0x3C ∉ ofString s) (condensed : Bool) :
    ∀ t ∈ gap condensed s, t.Legible := by
  intro t mem
  cases condensed with
  | true => simp [gap] at mem
  | false =>
    obtain rfl : t = .text (ofString s) := by simpa [gap] using mem
    exact text

theorem legible_payload (condensed : Bool) (data : Bytes) :
    ∀ t ∈ payload condensed (Base64.encode data), t.Legible := by
  have quiet : 0x3C ∉ Base64.encode data := by
    intro mem
    rcases Base64.mem_encode mem with letter | filler
    · exact absurd letter (by decide)
    · exact absurd filler (by decide)
  intro t mem
  cases condensed with
  | true =>
    by_cases empty : Base64.encode data = []
    · simp [payload, empty] at mem
    · obtain rfl : t = .text (Base64.encode data) := by simpa [payload, empty] using mem
      exact ⟨empty, quiet⟩
  | false =>
    obtain rfl : t = .text (ofString "\n" ++ (Base64.encode data ++ ofString "\n")) := by
      simpa [payload] using mem
    refine ⟨List.append_ne_nil_of_left_ne_nil (by decide) _, ?_⟩
    rw [List.mem_append, List.mem_append]
    rintro (line | encoded | line)
    · exact absurd line (by decide)
    · exact quiet encoded
    · exact absurd line (by decide)

theorem legible_endingTokens {condensed : Bool} {before : String} {comment : Option String}
    (blank : before = "" ∨ before = "\n")
    (quiet : ∀ c, comment = some c → ¬"]]>".toList <:+: c.toList) :
    ∀ t ∈ endingTokens condensed before comment, t.Legible := by
  intro t mem
  cases comment with
  | none =>
    simp only [endingTokens, List.mem_append, List.mem_cons] at mem
    rcases mem with space | rfl | space
    · rcases blank with rfl | rfl
      · exact legible_gap (by decide) condensed t space
      · exact legible_gap (by decide) condensed t space
    · exact legible_endTag (by decide)
    · exact legible_gap (by decide) condensed t space
  | some c =>
    simp only [endingTokens, List.mem_append, List.mem_cons] at mem
    rcases mem with (space | rfl | rfl | rfl | space) | rfl | space
    · rcases blank with rfl | rfl
      · exact legible_gap (by decide) condensed t space
      · exact legible_gap (by decide) condensed t space
    · exact legible_childTag (by decide)
    · exact dataEnd_notInfix (quiet c rfl)
    · exact legible_endTag (by decide)
    · exact legible_gap (by decide) condensed t space
    · exact legible_endTag (by decide)
    · exact legible_gap (by decide) condensed t space

theorem legible_textTokens {condensed : Bool} {s : String} (quiet : ¬"]]>".toList <:+: s.toList) :
    ∀ t ∈ textTokens condensed s, t.Legible := by
  intro t mem
  simp only [textTokens, List.mem_append, List.mem_cons, List.not_mem_nil, or_false] at mem
  rcases mem with space | rfl | rfl | rfl
  · exact legible_gap (by decide) condensed t space
  · exact legible_childTag (by decide)
  · exact dataEnd_notInfix quiet
  · exact legible_endTag (by decide)

theorem legible_binaryTokens (condensed : Bool) (data : Bytes) :
    ∀ t ∈ binaryTokens condensed data, t.Legible := by
  intro t mem
  simp only [binaryTokens, List.mem_append, List.mem_cons, List.not_mem_nil, or_false] at mem
  rcases mem with (space | rfl | content) | rfl
  · exact legible_gap (by decide) condensed t space
  · exact legible_childTag (by decide)
  · exact legible_payload condensed data t content
  · exact legible_endTag (by decide)

/-- The identification has to be known to hold no quote: it depends on the parent. -/
theorem legible_elementTokens {k : Key} (unescaped : Unescaped k) {naming : Naming}
    (quiet : ¬ofString "\"" <:+: naming.identifier.value) (condensed : Bool) :
    ∀ t ∈ elementTokens naming condensed k.value k.comment, t.Legible := by
  have identifier := legible_identifier quiet
  have identified : ∀ a ∈ [naming.identifier], a.Legible :=
    List.forall_mem_cons.mpr ⟨identifier, by simp⟩
  have ends : ∀ {before : String}, before = "" ∨ before = "\n" →
      ∀ t ∈ endingTokens condensed before k.comment, t.Legible :=
    fun blank => legible_endingTokens blank unescaped.comment
  unfold elementTokens
  cases value : k.value with
  | absent =>
    cases comment : k.comment with
    | none =>
      rw [List.forall_mem_cons]
      exact ⟨legible_keyTag identified true, legible_gap (by decide) condensed⟩
    | some c =>
      rw [List.forall_mem_cons]
      exact ⟨legible_keyTag identified false, comment ▸ ends (.inr rfl)⟩
  | text s =>
    dsimp only
    split
    · next fits =>
      have short := legible_valueToken condensed
        (unescaped.short s value (fitsAttribute_iff.mp fits))
      have attributed : ∀ a ∈ [naming.identifier, valueToken condensed s], a.Legible :=
        List.forall_mem_cons.mpr ⟨identifier, List.forall_mem_cons.mpr ⟨short, by simp⟩⟩
      cases comment : k.comment with
      | none =>
        rw [List.forall_mem_cons]
        exact ⟨legible_keyTag attributed true, legible_gap (by decide) condensed⟩
      | some c =>
        rw [List.forall_mem_cons]
        exact ⟨legible_keyTag attributed false, comment ▸ ends (.inr rfl)⟩
    · next long =>
      have quietData := unescaped.long s value fun short => long (fitsAttribute_iff.mpr short)
      rw [List.cons_append, List.forall_mem_cons]
      refine ⟨legible_keyTag identified false, ?_⟩
      rw [List.forall_mem_append]
      exact ⟨legible_textTokens quietData, ends (.inl rfl)⟩
  | binary data =>
    dsimp only
    rw [List.cons_append, List.forall_mem_cons]
    refine ⟨legible_keyTag identified false, ?_⟩
    rw [List.forall_mem_append]
    exact ⟨legible_binaryTokens condensed data, ends (.inl rfl)⟩

theorem spaced_elementTokens (naming : Naming) (condensed : Bool) (value : Value)
    (comment : Option String) : Spaced (elementTokens naming condensed value comment) := by
  unfold elementTokens
  cases value with
  | absent =>
    cases comment <;> cases condensed <;>
      simp [Spaced, Token.isText, gap, keyTag, childTag, endTag, endingTokens]
  | text s =>
    dsimp only
    split
    · cases comment <;> cases condensed <;>
        simp [Spaced, Token.isText, gap, keyTag, childTag, endTag, endingTokens]
    · cases comment <;> cases condensed <;>
        simp [Spaced, Token.isText, gap, keyTag, childTag, endTag, textTokens, endingTokens]
  | binary data =>
    by_cases empty : Base64.encode data = [] <;> cases comment <;> cases condensed <;>
      simp [Spaced, Token.isText, gap, keyTag, childTag, endTag, binaryTokens, payload, empty,
        endingTokens]

/-- An element begins with its tag. -/
theorem head?_elementTokens {naming : Naming} {condensed : Bool} {value : Value}
    {comment : Option String} {t : Token}
    (h : (elementTokens naming condensed value comment).head? = some t) : t.isText = false := by
  unfold elementTokens at h
  cases value with
  | absent => cases comment <;> (cases h; rfl)
  | text s =>
    dsimp only at h
    split at h
    · cases comment <;> (cases h; rfl)
    · cases h; rfl
  | binary data => cases h; rfl

/-! ## Documents -/

theorem suffix_of_basename? {name parent rest : Bytes} {size : Nat}
    (h : basename? name parent size = some rest) : rest <:+ name := by
  unfold basename? at h
  generalize (if size = 0 then parent.length else size) = skip at h
  dsimp only at h
  split at h
  · split at h
    · simp at h
    · obtain rfl := Option.some.inj h
      exact (List.dropWhile_suffix _).trans (List.drop_suffix _ _)
  · simp at h

theorem suffix_stored (k : Key) (parent : Option Parent) :
    (Naming.stored k parent).identifier.value <:+ ofString k.name := by
  unfold Naming.stored
  split
  · next rest found =>
    obtain ⟨p, -, cut⟩ := Option.bind_eq_some_iff.mp found
    exact suffix_of_basename? cut
  · exact List.suffix_rfl

theorem quote_notInfix_stored {k : Key} (unescaped : Unescaped k) (parent : Option Parent) :
    ¬ofString "\"" <:+: (Naming.stored k parent).identifier.value := by
  intro inside
  exact quote_notInfix unescaped.name (inside.trans (suffix_stored k parent).isInfix)

/-- The parent begins the name of every key, and there is a key. -/
theorem quote_notMem_parent {ks : KeySet} {o : Options} {p : String} (h : parent? ks o = some p)
    (unescaped : ∀ k ∈ ks.keys, Unescaped k) : '"' ∉ p.toList := by
  obtain ⟨k, mem⟩ := exists_key_of_parent? h
  intro quote
  have front := prefix_of_parent? h mem
  exact (unescaped k mem).name (front.subset quote)

/-- The number of keys does not end the comment it stands in. -/
theorem legible_count (count : Nat) :
    (Token.comment (ofString " Generated by keystream. Total of " ++
      (ofNat count ++ ofString " keys. "))).Legible := by
  have absent : asciiByte '>' ∉ ofNat count := Bytes.notMem_ofNat (by decide) (by decide) count
  intro inside
  have mem : asciiByte '>' ∈ ofString " Generated by keystream. Total of " ++
      (ofNat count ++ ofString " keys. ") := inside.subset (by decide)
  rw [List.mem_append, List.mem_append] at mem
  rcases mem with front | number | back
  · exact absurd front (by decide)
  · exact absent number
  · exact absurd back (by decide)

theorem legible_prologTokens (condensed : Bool) (count : Nat) :
    ∀ t ∈ prologTokens condensed count, t.Legible := by
  intro t mem
  rcases List.mem_cons.mp mem with rfl | mem
  · intro inside
    have question : (0x3F : UInt8) ∈ ofString "xml version=\"1.0\" encoding=\"UTF-8\"" :=
      inside.subset (by decide)
    exact absurd question (by decide)
  cases condensed with
  | true => simp at mem
  | false =>
    simp only [Bool.false_eq_true, ↓reduceIte, List.mem_cons, List.not_mem_nil, or_false] at mem
    rcases mem with rfl | rfl | rfl
    · exact ⟨by decide, by decide⟩
    · exact legible_count count
    · exact ⟨by decide, by decide⟩

theorem legible_schemaTokens (condensed : Bool) : ∀ a ∈ schemaTokens condensed, a.Legible := by
  intro a mem
  unfold schemaTokens at mem
  dsimp only at mem
  rcases List.mem_cons.mp mem with rfl | mem
  · exact legible_named (by decide) (by decide) (quote_notInfix (by decide))
  rcases List.mem_cons.mp mem with rfl | mem
  · cases condensed <;> exact legible_named (by decide) (by decide) (quote_notInfix (by decide))
  · obtain rfl := List.mem_singleton.mp mem
    cases condensed <;> exact legible_named (by decide) (by decide) (quote_notInfix (by decide))

theorem legible_rootTag {schema : List Attribute} (legible : ∀ a ∈ schema, a.Legible)
    {blanks : String} (blank : Blank (ofString blanks)) {parent : Option String}
    (quiet : ∀ p, parent = some p → '"' ∉ p.toList) : (rootTag schema blanks parent).Legible := by
  cases parent with
  | none => exact ⟨by decide, legible, blank⟩
  | some p =>
    refine ⟨by decide, ?_, by decide⟩
    intro a mem
    rcases List.mem_append.mp mem with given | last
    · exact legible a given
    obtain rfl := List.mem_singleton.mp last
    refine legible_named ⟨?_, ?_⟩ (by decide) (quote_notInfix (quiet p rfl))
    · rw [Bytes.ofString_append]
      exact List.append_ne_nil_of_right_ne_nil _ (by decide)
    · intro x inside
      rw [Bytes.ofString_append, List.mem_append] at inside
      rcases inside with before | space
      · exact blank x before
      · exact (show Blank (ofString "        ") by decide) x space

theorem legible_shownTokens {ks : KeySet} {o : Options} (unescaped : ∀ k ∈ ks.keys, Unescaped k)
    (identified : ∀ k ∈ ks.keys,
      ¬ofString "\"" <:+: (Naming.shown k (documentParent ks o) o).identifier.value) :
    ∀ t ∈ shownTokens ks o, t.Legible := by
  have line : (Token.text (ofString "\n")).Legible := ⟨by decide, by decide⟩
  have quiet : ∀ p, parent? ks o = some p → '"' ∉ p.toList :=
    fun _ found => quote_notMem_parent found unescaped
  intro t mem
  simp only [shownTokens, List.mem_append, List.mem_cons, List.not_mem_nil, or_false] at mem
  rcases mem with start | content | rfl | rfl
  · unfold openingTokens at start
    split at start
    · simp only [List.mem_append, List.mem_cons, List.not_mem_nil, or_false] at start
      rcases start with before | rfl | rfl
      · exact legible_prologTokens o.condensed ks.size t before
      · refine legible_rootTag (legible_schemaTokens o.condensed) ?_ quiet
        cases o.condensed <;> decide
      · exact line
    · rcases List.mem_cons.mp start with rfl | last
      · exact legible_rootTag (by simp) (by decide) quiet
      · obtain rfl := List.mem_singleton.mp last
        exact line
  · obtain ⟨k, mem, inside⟩ := List.mem_flatMap.mp content
    exact legible_elementTokens (unescaped k mem) (identified k mem) o.condensed t inside
  · exact legible_endTag (by decide)
  · exact line

theorem spaced_openingTokens (ks : KeySet) (o : Options) : Spaced (openingTokens ks o) := by
  unfold openingTokens prologTokens rootTag
  cases o.emitsXmlHeader <;> cases o.condensed <;> cases parent? ks o <;>
    simp [Spaced, Token.isText]

theorem spaced_flatMap {α : Type} (as : List α) {f : α → List Token} (each : ∀ a, Spaced (f a))
    (markup : ∀ a t, (f a).head? = some t → t.isText = false) {last : List Token}
    (end_ : Spaced last) (after : ∀ t, last.head? = some t → t.isText = false) :
    Spaced (as.flatMap f ++ last) ∧
      ∀ t, (as.flatMap f ++ last).head? = some t → t.isText = false := by
  induction as with
  | nil => exact ⟨end_, after⟩
  | cons a as ih =>
    rw [List.flatMap_cons, List.append_assoc]
    refine ⟨(each a).append ih.1 ih.2, ?_⟩
    intro t head
    cases first : f a with
    | nil => exact ih.2 t (by simpa [first] using head)
    | cons u us =>
      rw [first, List.cons_append] at head
      exact markup a t (by rw [first]; exact head)

theorem spaced_shownTokens (ks : KeySet) (o : Options) : Spaced (shownTokens ks o) := by
  have closing : Spaced [endTag "keyset", .text (ofString "\n")] := by
    simp [Spaced, Token.isText, endTag]
  have elements := spaced_flatMap ks.keys
    (fun k => spaced_elementTokens (.shown k (documentParent ks o) o) o.condensed k.value k.comment)
    (fun _ _ head => head?_elementTokens head) closing (by rintro t ⟨⟩; rfl)
  exact (spaced_openingTokens ks o).append elements.1 elements.2

/-- A scan of a document gives its tokens. -/
theorem scan_shown {ks : KeySet} {o : Options} (complete : (document ks o).refusal = none)
    (unescaped : ∀ k ∈ ks.keys, Unescaped k)
    (identified : ∀ k ∈ ks.keys,
      ¬ofString "\"" <:+: (Naming.shown k (documentParent ks o) o).identifier.value) :
    scan (document ks o).bytes = some (shownTokens ks o) := by
  rw [← bytes_shownTokens complete]
  exact scan_flatMap_bytes (legible_shownTokens unescaped identified) (spaced_shownTokens ks o)

theorem scan_document {ks : KeySet} {o : Options} (plain : o.fullName = false)
    (unescaped : ∀ k ∈ ks.keys, Unescaped k) :
    scan (document ks o).bytes = some (documentTokens ks o) := by
  have complete : (document ks o).refusal = none := by rw [document_eq_of_stored plain]
  rw [documentTokens_of_plain plain]
  refine scan_shown complete unescaped ?_
  intro k mem
  rw [Naming.shown_of_plain plain]
  exact quote_notInfix_stored (unescaped k mem) (documentParent ks o)

end KeyExport.Xml
