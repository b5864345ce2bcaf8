import KeyExport.Proofs.Markup.Token

/-!
# Scanning legible tokens

A token is legible when nothing in it looks like its end: no quote in an attribute, no delimiter in
what it delimits, no `<` in a text. A text goes on until the next `<`, so two texts side by side would
be read as one. All other sequences of legible tokens are read back from their bytes.
-/

namespace KeyExport.Markup

open Bytes (ofString)
open Text (dropFront?)

/-- The name of a tag or an attribute. -/
structure IsName (n : Bytes) : Prop where
  nonempty : n ≠ []
  all : ∀ x ∈ n, isNameByte x = true

instance (n : Bytes) : Decidable (IsName n) :=
  decidable_of_iff (n ≠ [] ∧ n.all isNameByte = true)
    ⟨fun ⟨nonempty, all⟩ => ⟨nonempty, List.all_eq_true.mp all⟩,
      fun h => ⟨h.nonempty, List.all_eq_true.mpr h.all⟩⟩

structure Attribute.Legible (a : Attribute) : Prop where
  separated : a.lead ≠ []
  lead : Blank a.lead
  name : IsName a.name
  value : ¬ofString "\"" <:+: a.value

def Token.Legible : Token → Prop
  | declaration b => ¬ofString "?>" <:+: b
  | comment b => ¬ofString "-->" <:+: b
  | data b => ¬ofString "]]>" <:+: b
  | startTag name attributes trail _ =>
    IsName name ∧ (∀ a ∈ attributes, a.Legible) ∧ Blank trail
  | endTag name => ¬ofString ">" <:+: name
  | text b => b ≠ [] ∧ 0x3C ∉ b

theorem takeWhile_append_of_stop {p : UInt8 → Bool} {front rest : Bytes}
    (all : ∀ x ∈ front, p x = true) (stop : ∀ x, rest.head? = some x → p x = false) :
    (front ++ rest).takeWhile p = front := by
  rw [List.takeWhile_append_of_pos all]
  cases rest with
  | nil => simp
  | cons x rest => rw [List.takeWhile_cons_of_neg (by simp [stop x rfl]), List.append_nil]

theorem dropWhile_append_of_stop {p : UInt8 → Bool} {front rest : Bytes}
    (all : ∀ x ∈ front, p x = true) (stop : ∀ x, rest.head? = some x → p x = false) :
    (front ++ rest).dropWhile p = rest := by
  rw [List.dropWhile_append_of_pos all]
  cases rest with
  | nil => simp
  | cons x rest => rw [List.dropWhile_cons_of_neg (by simp [stop x rfl])]

theorem isNameByte_eq_false {x : UInt8} (h : isBlank x = true) : isNameByte x = false := by
  apply Bool.eq_false_iff.mpr
  intro name
  rw [isBlank_eq_false name] at h
  simp at h

theorem delimiter_quote : Delimiter (ofString "\"") := ⟨[], 0x22, by decide, by decide⟩

theorem attribute?_bytes {a : Attribute} (legible : a.Legible) (rest : Bytes) :
    attribute? (a.bytes ++ rest) = some (a, rest) := by
  obtain ⟨x, name, shape⟩ := List.exists_cons_of_ne_nil legible.name.nonempty
  have head : isBlank x = false :=
    isBlank_eq_false (legible.name.all x (by rw [shape]; exact List.mem_cons_self))
  have blanks : ∀ y, (a.name ++ (ofString "=\"" ++ (a.value ++ (ofString "\"" ++ rest)))).head? =
      some y → isBlank y = false := by
    intro y e
    rw [shape, List.cons_append, List.head?_cons, Option.some.injEq] at e
    exact e ▸ head
  have equals : ∀ y, (ofString "=\"" ++ (a.value ++ (ofString "\"" ++ rest))).head? = some y →
      isNameByte y = false := by
    intro y e
    cases (show (0x3D : UInt8) = y from Option.some.inj e)
    decide
  simp only [attribute?, Attribute.bytes, List.append_assoc]
  rw [takeWhile_append_of_stop legible.lead blanks, dropWhile_append_of_stop legible.lead blanks,
    takeWhile_append_of_stop legible.name.all equals,
    dropWhile_append_of_stop legible.name.all equals,
    if_neg (by simp [legible.separated, legible.name.nonempty]), Text.dropFront?_append,
    Option.bind_some, upTo?_append delimiter_quote legible.value]
  rfl

theorem attributes_bytes {as : List Attribute} (legible : ∀ a ∈ as, a.Legible) {rest : Bytes}
    (stop : attribute? rest = none) :
    attributes (as.flatMap Attribute.bytes ++ rest) = (as, rest) := by
  induction as with
  | nil =>
    unfold attributes
    split
    · rfl
    · next found =>
      rw [List.flatMap_nil, List.nil_append, stop] at found
      cases found
  | cons a as ih =>
    have first := attribute?_bytes (legible a List.mem_cons_self)
      (as.flatMap Attribute.bytes ++ rest)
    have others := ih fun b mem => legible b (List.mem_cons_of_mem _ mem)
    rw [List.flatMap_cons, List.append_assoc]
    unfold attributes
    split
    · next none =>
      rw [first] at none
      cases none
    · next found =>
      rw [first] at found
      cases found
      rw [others]

theorem head?_tagEnd {closed : Bool} {rest : Bytes} {y : UInt8}
    (h : (tagEnd closed ++ rest).head? = some y) : isBlank y = false ∧ isNameByte y = false := by
  cases closed with
  | true =>
    cases (show (0x2F : UInt8) = y from Option.some.inj h)
    decide
  | false =>
    cases (show (0x3E : UInt8) = y from Option.some.inj h)
    decide

/-- Blanks up to the end of a tag are no attribute. -/
theorem attribute?_trail {trail : Bytes} (blank : Blank trail) (closed : Bool)
    (rest : Bytes) : attribute? (trail ++ (tagEnd closed ++ rest)) = none := by
  have stop : ∀ y, (tagEnd closed ++ rest).head? = some y → isBlank y = false :=
    fun _ e => (head?_tagEnd e).1
  have nameless : (tagEnd closed ++ rest).takeWhile isNameByte = [] :=
    @takeWhile_append_of_stop _ [] _ (by simp) fun _ e => (head?_tagEnd e).2
  simp only [attribute?]
  rw [dropWhile_append_of_stop blank stop, if_pos (.inr nameless)]

/-- After the name of a tag comes a blank or the end of the tag. -/
theorem head?_after_name {as : List Attribute} (legible : ∀ a ∈ as, a.Legible) {trail : Bytes}
    (blank : Blank trail) {closed : Bool} {rest : Bytes} {y : UInt8}
    (h : (as.flatMap Attribute.bytes ++ (trail ++ (tagEnd closed ++ rest))).head? = some y) :
    isNameByte y = false := by
  cases as with
  | cons a as =>
    have first := legible a List.mem_cons_self
    obtain ⟨x, lead, shape⟩ := List.exists_cons_of_ne_nil first.separated
    simp only [List.flatMap_cons, Attribute.bytes, shape, List.cons_append, List.head?_cons,
      Option.some.injEq] at h
    apply isNameByte_eq_false
    rw [← h]
    exact first.lead x (by simp [shape])
  | nil =>
    cases trail with
    | cons x trail =>
      cases (show x = y from Option.some.inj h)
      exact isNameByte_eq_false (blank _ List.mem_cons_self)
    | nil => exact (head?_tagEnd h).2

theorem startTag?_bytes {name : Bytes} {as : List Attribute} {trail : Bytes} {closed : Bool}
    (legible : (Token.startTag name as trail closed).Legible) (rest : Bytes) :
    startTag? ((Token.startTag name as trail closed).bytes ++ rest) =
      some (.startTag name as trail closed, rest) := by
  obtain ⟨named, attributed, blank⟩ := legible
  have after : ∀ y, (as.flatMap Attribute.bytes ++ (trail ++ (tagEnd closed ++ rest))).head? =
      some y → isNameByte y = false := fun _ e => head?_after_name attributed blank e
  have stop : ∀ y, (tagEnd closed ++ rest).head? = some y → isBlank y = false :=
    fun _ e => (head?_tagEnd e).1
  simp only [startTag?, Token.bytes, List.append_assoc]
  rw [Text.dropFront?_append, Option.bind_some, takeWhile_append_of_stop named.all after,
    dropWhile_append_of_stop named.all after, if_neg named.nonempty,
    attributes_bytes attributed (attribute?_trail blank closed rest),
    takeWhile_append_of_stop blank stop, dropWhile_append_of_stop blank stop]
  cases closed with
  | true =>
    rw [Text.dropFront?_append]
    rfl
  | false =>
    have opens : dropFront? (tagEnd true) (tagEnd false ++ rest) = none := rfl
    rw [opens, Text.dropFront?_append]
    rfl

theorem delimited?_bytes {front stop b : Bytes} (delimiter : Delimiter stop) (absent : ¬stop <:+: b)
    (make : Bytes → Token) (rest : Bytes) :
    delimited? front stop make (front ++ (b ++ stop) ++ rest) = some (make b, rest) := by
  rw [delimited?, List.append_assoc, Text.dropFront?_append, Option.bind_some, List.append_assoc,
    upTo?_append delimiter absent]
  rfl

theorem delimiter_question : Delimiter (ofString "?>") := ⟨[0x3F], 0x3E, by decide, by decide⟩

theorem delimiter_comment : Delimiter (ofString "-->") := ⟨[0x2D, 0x2D], 0x3E, by decide, by decide⟩

theorem delimiter_data : Delimiter (ofString "]]>") := ⟨[0x5D, 0x5D], 0x3E, by decide, by decide⟩

theorem delimiter_tag : Delimiter (ofString ">") := ⟨[], 0x3E, by decide, by decide⟩

/-- Markup that begins neither with `?`, `!` nor `/` is no delimited token. -/
theorem delimited?_of_name (front : Bytes) {f x : UInt8} (shape : ∃ fs, front = 0x3C :: f :: fs)
    (h : f ≠ x) {stop b : Bytes} {make : Bytes → Token} :
    delimited? front stop make (0x3C :: x :: b) = none := by
  obtain ⟨fs, rfl⟩ := shape
  simp [delimited?, dropFront?, h]

theorem delimited?_of_text (front : Bytes) (shape : ∃ fs, front = 0x3C :: fs) {x : UInt8}
    (h : 0x3C ≠ x) {stop b : Bytes} {make : Bytes → Token} :
    delimited? front stop make (x :: b) = none := by
  obtain ⟨fs, rfl⟩ := shape
  simp [delimited?, dropFront?, h]

/-- A text is read as it is when markup or nothing follows. -/
theorem text?_append {b : Bytes} (legible : (Token.text b).Legible) {rest : Bytes}
    (stop : ∀ y, rest.head? = some y → y = 0x3C) : text? (b ++ rest) = some (.text b, rest) := by
  have all : ∀ x ∈ b, (x != 0x3C) = true := by
    intro x mem
    simp only [bne_iff_ne, ne_eq]
    rintro rfl
    exact legible.2 mem
  have ends : ∀ y, rest.head? = some y → (y != 0x3C) = false := by
    intro y e
    simp [stop y e]
  rw [text?, takeWhile_append_of_stop all ends, dropWhile_append_of_stop all ends]
  simp [legible.1]

theorem token?_bytes {t : Token} (legible : t.Legible) {rest : Bytes}
    (stop : t.isText = true → ∀ y, rest.head? = some y → y = 0x3C) :
    token? (t.bytes ++ rest) = some (t, rest) := by
  cases t with
  | declaration b =>
    rw [token?, Token.bytes, delimited?_bytes delimiter_question legible]
    rfl
  | comment b =>
    have first : delimited? (ofString "<?") (ofString "?>") .declaration
        ((Token.comment b).bytes ++ rest) = none := rfl
    rw [token?, first, Token.bytes, delimited?_bytes delimiter_comment legible]
    rfl
  | data b =>
    have first : delimited? (ofString "<?") (ofString "?>") .declaration
        ((Token.data b).bytes ++ rest) = none := rfl
    have second : delimited? (ofString "<!--") (ofString "-->") .comment
        ((Token.data b).bytes ++ rest) = none := rfl
    rw [token?, first, second, Token.bytes, delimited?_bytes delimiter_data legible]
    rfl
  | endTag name =>
    have first : delimited? (ofString "<?") (ofString "?>") .declaration
        ((Token.endTag name).bytes ++ rest) = none := rfl
    have second : delimited? (ofString "<!--") (ofString "-->") .comment
        ((Token.endTag name).bytes ++ rest) = none := rfl
    have third : delimited? (ofString "<![CDATA[") (ofString "]]>") .data
        ((Token.endTag name).bytes ++ rest) = none := rfl
    rw [token?, first, second, third, Token.bytes, delimited?_bytes delimiter_tag legible]
    rfl
  | startTag name as trail closed =>
    obtain ⟨x, others, shape⟩ := List.exists_cons_of_ne_nil legible.1.nonempty
    have letter := legible.1.all x (by rw [shape]; exact List.mem_cons_self)
    obtain ⟨b, front⟩ :
        ∃ b, (Token.startTag name as trail closed).bytes ++ rest = 0x3C :: x :: b := by
      rw [Token.bytes, shape]
      exact ⟨_, rfl⟩
    have question : (0x3F : UInt8) ≠ x := by rintro rfl; exact absurd letter (by decide)
    have exclamation : (0x21 : UInt8) ≠ x := by rintro rfl; exact absurd letter (by decide)
    have slash : (0x2F : UInt8) ≠ x := by rintro rfl; exact absurd letter (by decide)
    rw [token?, startTag?_bytes legible, front, delimited?_of_name (ofString "<?") ⟨_, rfl⟩ question,
      delimited?_of_name (ofString "<!--") ⟨_, rfl⟩ exclamation,
      delimited?_of_name (ofString "<![CDATA[") ⟨_, rfl⟩ exclamation,
      delimited?_of_name (ofString "</") ⟨_, rfl⟩ slash]
    rfl
  | text b =>
    obtain ⟨x, others, shape⟩ := List.exists_cons_of_ne_nil legible.1
    have plain : (0x3C : UInt8) ≠ x := by
      rintro rfl
      exact legible.2 (by rw [shape]; exact List.mem_cons_self)
    have read := text?_append legible (stop rfl)
    rw [shape, List.cons_append] at read
    rw [token?, Token.bytes, shape, List.cons_append, read,
      delimited?_of_text (ofString "<?") ⟨_, rfl⟩ plain,
      delimited?_of_text (ofString "<!--") ⟨_, rfl⟩ plain,
      delimited?_of_text (ofString "<![CDATA[") ⟨_, rfl⟩ plain,
      delimited?_of_text (ofString "</") ⟨_, rfl⟩ plain, startTag?]
    have tag : dropFront? (ofString "<") (x :: (others ++ rest)) = none := if_neg plain
    rw [tag]
    rfl

/-! ## Sequences of tokens -/

/-- No two texts stand side by side. -/
def Spaced : List Token → Prop
  | t :: u :: ts => ¬(t.isText = true ∧ u.isText = true) ∧ Spaced (u :: ts)
  | _ => True

theorem Spaced.tail {t : Token} {ts : List Token} (h : Spaced (t :: ts)) : Spaced ts := by
  cases ts with
  | nil => trivial
  | cons u ts => exact h.2

/-- Markup keeps what stands before it apart from what follows. -/
theorem Spaced.append {ts us : List Token} (first : Spaced ts) (second : Spaced us)
    (markup : ∀ u, us.head? = some u → u.isText = false) : Spaced (ts ++ us) := by
  induction ts with
  | nil => exact second
  | cons t ts ih =>
    have rest := ih first.tail
    cases ts with
    | nil =>
      cases us with
      | nil => trivial
      | cons u us =>
        refine ⟨?_, second⟩
        intro texts
        rw [markup u rfl] at texts
        exact Bool.noConfusion texts.2
    | cons v ts => exact ⟨first.1, rest⟩

theorem Token.Legible.bytes_ne_nil {t : Token} (legible : t.Legible) : t.bytes ≠ [] := by
  cases t with
  | text b => exact legible.1
  | _ => exact List.append_ne_nil_of_left_ne_nil (by decide) _

theorem head?_bytes_of_markup {t : Token} (markup : t.isText = false) (rest : Bytes) :
    (t.bytes ++ rest).head? = some 0x3C := by
  cases t with
  | text => simp [Token.isText] at markup
  | _ => rfl

/-- Legible tokens are read back from the bytes that they spell. -/
theorem scan_flatMap_bytes {ts : List Token} (legible : ∀ t ∈ ts, t.Legible) (spaced : Spaced ts) :
    scan (ts.flatMap Token.bytes) = some ts := by
  induction ts with
  | nil => simp [scan]
  | cons t ts ih =>
    have first := legible t List.mem_cons_self
    have others := ih (fun u mem => legible u (List.mem_cons_of_mem _ mem)) spaced.tail
    have stop : t.isText = true → ∀ y, (ts.flatMap Token.bytes).head? = some y → y = 0x3C := by
      intro text y e
      cases ts with
      | nil => simp at e
      | cons u us =>
        have markup : u.isText = false := by
          apply Bool.eq_false_iff.mpr
          intro also
          exact spaced.1 ⟨text, also⟩
        rw [List.flatMap_cons, head?_bytes_of_markup markup] at e
        exact (Option.some.inj e).symm
    have read := token?_bytes first stop
    rw [List.flatMap_cons]
    unfold scan
    rw [if_neg (List.append_ne_nil_of_left_ne_nil first.bytes_ne_nil _)]
    split
    · next none =>
      rw [read] at none
      cases none
    · next found =>
      rw [read] at found
      cases found
      rw [others]
      rfl

end KeyExport.Markup
