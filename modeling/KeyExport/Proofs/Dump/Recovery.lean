import KeyExport.Proofs.Dump.Field
import KeyExport.Proofs.Sink.Accepting
import Mathlib.Data.List.Forall2
import Mathlib.Data.List.TakeWhile

/-!
# What a listing tells

A line is a run of fields and something short that begins like none, so it tells the name, the value and
the comment of its key as far as it shows them; and a listing tells its lines one by one.
-/

namespace KeyExport.Dump

open Bytes (ofString ofNat)

/-! ## Lines -/

def name? (k : Key) : Option Field :=
  if 1 < k.nameSize then some ⟨.name, k.nameSize, ofString k.name⟩ else none

def value? (k : Key) : Option Field :=
  if 1 < k.valueSize then
    match k.value with
    | .absent => none
    | .text s => some ⟨.text, k.valueSize, ofString s⟩
    | .binary data => some ⟨.binary, k.valueSize, data.takeWhile (· != 0)⟩
  else none

def comment? (k : Key) : Option Field :=
  k.comment.bind fun c => if 1 < k.commentSize then some ⟨.comment, k.commentSize, ofString c⟩ else none

def fields (k : Key) : List Field := (name? k).toList ++ (value? k).toList ++ (comment? k).toList

/-- What stands between the fields and the end of the line. -/
def trail (k : Key) (o : Options) : Bytes :=
  ((if o.showMeta then [ofString " : "] else []) ++
    if o.showFlags then
      (if o.showMeta then [] else [ofString " "]) ++ [ofString "Flags: "] ++ codes k
    else []).flatten

theorem flatten_nameField (k : Key) : (nameField k).flatten = (name? k).toList.flatMap Field.bytes := by
  unfold nameField name?
  split <;> simp [Field.bytes, Kind.label]

theorem flatten_valueField (k : Key) :
    (valueField k).flatten = (value? k).toList.flatMap Field.bytes := by
  unfold valueField value?
  split
  · cases k.value <;> simp [Field.bytes, Kind.label]
  · rfl

theorem flatten_commentField (k : Key) :
    (commentField k).flatten = (comment? k).toList.flatMap Field.bytes := by
  unfold commentField comment?
  cases k.comment with
  | none => rfl
  | some c =>
    simp only [Option.bind_some]
    split <;> simp [Field.bytes, Kind.label]

theorem flatten_line {o : Options} (values : o.keyValue = true) (comments : o.keyMeta = true) (k : Key) :
    (line k o).flatten = (fields k).flatMap Field.bytes ++ (trail k o ++ ofString "\n") := by
  rw [line, if_pos values, if_pos comments, fields, trail]
  simp only [List.flatten_append, List.flatMap_append, flatten_nameField, flatten_valueField,
    flatten_commentField, List.append_assoc, List.flatten_cons, List.flatten_nil, List.append_nil]

theorem newline_notMem_trail (k : Key) (o : Options) : asciiByte '\n' ∉ trail k o := by
  unfold trail codes
  cases o.showMeta <;> cases o.showFlags <;> cases k.isBinary <;> cases k.isText <;>
    cases k.needsSync <;> decide

theorem ends_trail (k : Key) (o : Options) (r : Bytes) : Field.Ends (trail k o ++ asciiByte '\n' :: r) := by
  unfold trail
  cases o.showMeta with
  | true => exact .inl rfl
  | false =>
    cases o.showFlags with
    | true => exact .inl rfl
    | false => exact .inr rfl

/-! ## What the fields tell -/

theorem name?_eq_some_iff {k : Key} {f : Field} :
    name? k = some f ↔ k.name ≠ "" ∧ ⟨.name, k.nameSize, ofString k.name⟩ = f := by
  have shown : 1 < k.nameSize ↔ k.name ≠ "" := by
    rw [Key.nameSize, ne_eq, ← String.utf8ByteSize_eq_zero_iff]
    omega
  unfold name?
  split <;> simp_all

theorem value?_eq_some_iff {k : Key} {f : Field} :
    value? k = some f ↔ 1 < k.valueSize ∧
      ((∃ s, k.value = .text s ∧ ⟨.text, k.valueSize, ofString s⟩ = f) ∨
        ∃ data, k.value = .binary data ∧ ⟨.binary, k.valueSize, data.takeWhile (· != 0)⟩ = f) := by
  unfold value?
  split
  · next large => cases k.value <;> simp [large]
  · next small => simp [small]

theorem comment?_eq_some_iff {k : Key} {f : Field} :
    comment? k = some f ↔
      ∃ c, k.comment = some c ∧ c ≠ "" ∧ ⟨.comment, k.commentSize, ofString c⟩ = f := by
  have shown : ∀ c, k.comment = some c → (1 < k.commentSize ↔ c ≠ "") := by
    intro c given
    rw [Key.commentSize, given, Option.elim_some, ne_eq, ← String.utf8ByteSize_eq_zero_iff]
    omega
  rw [comment?, Option.bind_eq_some_iff]
  apply exists_congr
  intro c
  apply and_congr_right
  intro given
  rw [← shown c given]
  split
  · next large => simp [large]
  · next small => simp [small]

/-- Binary content is shown up to its first zero byte; without one it is shown in full. -/
def ShownInFull (v : Value) : Prop := ∀ data, v = .binary data → 0 ∉ data

theorem takeWhile_of_shownInFull {data : Bytes} (full : ShownInFull (.binary data)) :
    data.takeWhile (· != 0) = data := by
  rw [List.takeWhile_eq_self_iff]
  intro x mem
  rw [bne_iff_ne]
  rintro rfl
  exact full data rfl mem

theorem sized_fields {k : Key} (full : ShownInFull k.value) : ∀ f ∈ fields k, f.Sized := by
  intro f mem
  simp only [fields, List.mem_append, Option.mem_toList] at mem
  rcases mem with (name | value) | comment
  · obtain ⟨-, rfl⟩ := name?_eq_some_iff.mp name
    simp [Field.Sized, Key.nameSize, Bytes.length_ofString]
  · rcases value?_eq_some_iff.mp value with ⟨-, ⟨s, given, rfl⟩ | ⟨data, given, rfl⟩⟩
    · simp [Field.Sized, Key.valueSize, given, Value.size, Bytes.length_ofString]
    · rw [given] at full
      rw [takeWhile_of_shownInFull full]
      simp [Field.Sized, Key.valueSize, given, Value.size]
  · obtain ⟨c, given, -, rfl⟩ := comment?_eq_some_iff.mp comment
    simp [Field.Sized, Key.commentSize, given, Bytes.length_ofString]

section Lookup

variable {a : Option Field} {p : Field → Bool}

theorem find?_toList_of_all (all : ∀ f, a = some f → p f = true) : a.toList.find? p = a := by
  cases a with
  | none => rfl
  | some f => simp [all f rfl]

theorem find?_toList_of_no (no : ∀ f, a = some f → p f = false) : a.toList.find? p = none := by
  cases a with
  | none => rfl
  | some f => simp [no f rfl]

end Lookup

theorem kind_of_name? {k : Key} {f : Field} (shown : name? k = some f) : f.kind = .name := by
  obtain ⟨-, rfl⟩ := name?_eq_some_iff.mp shown
  rfl

theorem kind_of_value? {k : Key} {f : Field} (shown : value? k = some f) :
    f.kind = .text ∨ f.kind = .binary := by
  rcases value?_eq_some_iff.mp shown with ⟨-, ⟨s, -, rfl⟩ | ⟨data, -, rfl⟩⟩
  · exact .inl rfl
  · exact .inr rfl

theorem kind_of_comment? {k : Key} {f : Field} (shown : comment? k = some f) : f.kind = .comment := by
  obtain ⟨c, -, -, rfl⟩ := comment?_eq_some_iff.mp shown
  rfl

/-- The fields of a line are of different kinds, so each is found among them. -/
theorem find?_fields (k : Key) :
    (fields k).find? (·.kind = .name) = name? k ∧
      (fields k).find? (fun f => f.kind = .text ∨ f.kind = .binary) = value? k ∧
      (fields k).find? (·.kind = .comment) = comment? k := by
  have name := fun f => kind_of_name? (k := k) (f := f)
  have value := fun f => kind_of_value? (k := k) (f := f)
  have comment := fun f => kind_of_comment? (k := k) (f := f)
  simp only [fields, List.find?_append]
  refine ⟨?_, ?_, ?_⟩
  · rw [find?_toList_of_all fun f shown => by simp [name f shown],
      find?_toList_of_no fun f shown => by rcases value f shown with e | e <;> simp [e],
      find?_toList_of_no fun f shown => by simp [comment f shown], Option.or_none, Option.or_none]
  · rw [find?_toList_of_no fun f shown => by simp [name f shown],
      find?_toList_of_all fun f shown => by simpa using value f shown,
      find?_toList_of_no fun f shown => by simp [comment f shown], Option.none_or, Option.or_none]
  · rw [find?_toList_of_no fun f shown => by simp [name f shown],
      find?_toList_of_no fun f shown => by rcases value f shown with e | e <;> simp [e],
      find?_toList_of_all fun f shown => by simp [comment f shown], Option.none_or, Option.none_or]

/-- What a listing tells of two keys that it does not tell apart. -/
structure ShownAlike (k l : Key) : Prop where
  name : k.name = l.name
  large : 1 < k.valueSize ↔ 1 < l.valueSize
  value : 1 < k.valueSize → k.value = l.value
  commented : (∃ c, k.comment = some c ∧ c ≠ "") ↔ ∃ c, l.comment = some c ∧ c ≠ ""
  comment : (∃ c, k.comment = some c ∧ c ≠ "") → k.comment = l.comment

theorem name_eq_of_name?_eq {k l : Key} (same : name? k = name? l) : k.name = l.name := by
  by_cases empty : k.name = ""
  · by_contra other
    have shown := name?_eq_some_iff.mpr ⟨fun none => other (empty.trans none.symm), rfl⟩
    rw [← same] at shown
    exact (name?_eq_some_iff.mp shown).1 empty
  · have shown := name?_eq_some_iff.mpr ⟨empty, rfl⟩
    rw [same] at shown
    obtain ⟨-, parts⟩ := name?_eq_some_iff.mp shown
    exact Bytes.ofString_injective (Field.mk.inj parts).2.2.symm

theorem exists_value?_iff {k : Key} : (∃ f, value? k = some f) ↔ 1 < k.valueSize := by
  simp only [value?_eq_some_iff]
  constructor
  · rintro ⟨f, large, -⟩
    exact large
  · intro large
    cases given : k.value with
    | absent => simp [Key.valueSize, given, Value.size] at large
    | text s => exact ⟨_, large, .inl ⟨s, rfl, rfl⟩⟩
    | binary data => exact ⟨_, large, .inr ⟨data, rfl, rfl⟩⟩

theorem value_eq_of_value?_eq {k l : Key} (hk : ShownInFull k.value) (hl : ShownInFull l.value)
    (same : value? k = value? l) (large : 1 < k.valueSize) : k.value = l.value := by
  obtain ⟨f, shown⟩ := exists_value?_iff.mpr large
  have other := same ▸ shown
  rcases value?_eq_some_iff.mp shown with ⟨-, ⟨s, given, rfl⟩ | ⟨data, given, rfl⟩⟩
  · rcases value?_eq_some_iff.mp other with ⟨-, ⟨t, given', parts⟩ | ⟨data', given', parts⟩⟩
    · rw [given, given', Bytes.ofString_injective (Field.mk.inj parts).2.2]
    · cases (Field.mk.inj parts).1
  · rcases value?_eq_some_iff.mp other with ⟨-, ⟨t, given', parts⟩ | ⟨data', given', parts⟩⟩
    · cases (Field.mk.inj parts).1
    · rw [given] at hk ⊢
      rw [given'] at hl ⊢
      have content := (Field.mk.inj parts).2.2
      rw [takeWhile_of_shownInFull hk, takeWhile_of_shownInFull hl] at content
      rw [content]

theorem comment_eq_of_comment?_eq {k l : Key} (same : comment? k = comment? l) {c : String}
    (given : k.comment = some c) (nonempty : c ≠ "") : l.comment = some c := by
  have shown := comment?_eq_some_iff.mpr ⟨c, given, nonempty, rfl⟩
  rw [same] at shown
  obtain ⟨d, given', -, parts⟩ := comment?_eq_some_iff.mp shown
  rw [given', Bytes.ofString_injective (Field.mk.inj parts).2.2]

theorem shownAlike_of_fields_eq {k l : Key} (hk : ShownInFull k.value) (hl : ShownInFull l.value)
    (same : fields k = fields l) : ShownAlike k l := by
  obtain ⟨nameK, valueK, commentK⟩ := find?_fields k
  obtain ⟨nameL, valueL, commentL⟩ := find?_fields l
  rw [same] at nameK valueK commentK
  have name : name? k = name? l := nameK.symm.trans nameL
  have value : value? k = value? l := valueK.symm.trans valueL
  have comment : comment? k = comment? l := commentK.symm.trans commentL
  refine ⟨name_eq_of_name?_eq name, ?_, value_eq_of_value?_eq hk hl value, ⟨?_, ?_⟩, ?_⟩
  · rw [← exists_value?_iff, ← exists_value?_iff, value]
  · rintro ⟨c, given, nonempty⟩
    exact ⟨c, comment_eq_of_comment?_eq comment given nonempty, nonempty⟩
  · rintro ⟨c, given, nonempty⟩
    exact ⟨c, comment_eq_of_comment?_eq comment.symm given nonempty, nonempty⟩
  · rintro ⟨c, given, nonempty⟩
    rw [given, comment_eq_of_comment?_eq comment given nonempty]

/-! ## Listings -/

theorem flatten_lines_cons (o : Options) (i : Nat) (k : Key) (ks : List Key) :
    (lines o i (k :: ks)).flatten =
      (indexed o i).flatten ++ ((line k o).flatten ++ (lines o (i + 1) ks).flatten) := by
  rw [lines, List.flatten_append, List.flatten_append, List.append_assoc]

section Listings

variable {o : Options} (values : o.keyValue = true) (comments : o.keyMeta = true)

include values comments

theorem line_append_cancel {k l : Key} (hk : ShownInFull k.value) (hl : ShownInFull l.value) {r s : Bytes}
    (same : (line k o).flatten ++ r = (line l o).flatten ++ s) : ShownAlike k l ∧ r = s := by
  have newline : ofString "\n" = [asciiByte '\n'] := rfl
  rw [flatten_line values comments, flatten_line values comments, newline] at same
  simp only [List.append_assoc, List.singleton_append] at same
  obtain ⟨fields, rest⟩ :=
    Field.flatMap_bytes_cancel (sized_fields hk) (sized_fields hl) (ends_trail k o r) (ends_trail l o s) same
  exact ⟨shownAlike_of_fields_eq hk hl fields,
    (Bytes.append_stop_cancel (newline_notMem_trail k o) (newline_notMem_trail l o) rest).2⟩

theorem flatten_lines_cons_ne_nil (i : Nat) (k : Key) (ks : List Key) :
    (lines o i (k :: ks)).flatten ≠ [] := by
  have newline : ofString "\n" ≠ [] := by decide
  rw [flatten_lines_cons, flatten_line values comments]
  simp [newline]

/-- Lines that are numbered alike are told apart one by one. -/
theorem lines_cancel {ks ls : List Key} (hk : ∀ k ∈ ks, ShownInFull k.value)
    (hl : ∀ l ∈ ls, ShownInFull l.value) {i : Nat}
    (same : (lines o i ks).flatten = (lines o i ls).flatten) : List.Forall₂ ShownAlike ks ls := by
  induction ks generalizing i ls with
  | nil =>
    cases ls with
    | nil => exact .nil
    | cons l ls => exact absurd same.symm (flatten_lines_cons_ne_nil values comments i l ls)
  | cons k ks ih =>
    cases ls with
    | nil => exact absurd same (flatten_lines_cons_ne_nil values comments i k ks)
    | cons l ls =>
      obtain ⟨firstK, othersK⟩ := List.forall_mem_cons.mp hk
      obtain ⟨firstL, othersL⟩ := List.forall_mem_cons.mp hl
      rw [flatten_lines_cons, flatten_lines_cons] at same
      obtain ⟨first, rest⟩ :=
        line_append_cancel values comments firstK firstL (List.append_cancel_left same)
      exact .cons first (ih othersK othersL rest)

end Listings

/-- The line before all others, if there is one, says how many keys there are. -/
theorem lines_eq_of_listing_eq {ks ls : KeySet} {o : Options}
    (same : (listing ks o).flatten = (listing ls o).flatten) :
    (lines o 0 ks.keys).flatten = (lines o 0 ls.keys).flatten := by
  have newline : ofString "\n" = [asciiByte '\n'] := rfl
  simp only [listing, List.flatten_append] at same
  cases header : o.header with
  | false => simpa [header] using same
  | true =>
    simp only [header, ↓reduceIte, List.flatten_cons, List.flatten_nil, List.append_nil, newline,
      List.append_assoc, List.singleton_append] at same
    exact (Bytes.ofNat_append_cancel (by decide) (by decide) (List.append_cancel_left same)).2

/-- Listings that are the same byte by byte, with values and comments, hold the same keys in the same
order as far as they show them: all of their names, the values whose size is more than one, and the
comments that are not empty. -/
theorem keys_alike_of_same_listing {ks ls : KeySet} {o : Options} (values : o.keyValue = true)
    (comments : o.keyMeta = true) (hk : ∀ k ∈ ks.keys, ShownInFull k.value)
    (hl : ∀ l ∈ ls.keys, ShownInFull l.value)
    (same : ((keySet ks o).writeTo ({} : Memory)).2.contents =
      ((keySet ls o).writeTo ({} : Memory)).2.contents) :
    ks.size = ls.size ∧ List.Forall₂ ShownAlike ks.keys ls.keys := by
  rw [(Memory.writeTo_eq _ _).2, (Memory.writeTo_eq _ _).2] at same
  have lines := lines_eq_of_listing_eq (List.append_cancel_left same)
  have alike := lines_cancel values comments hk hl lines
  exact ⟨alike.length_eq, alike⟩

/-- Contents that look like fields and lines, and two keys that only differ in what is not shown: one
has to be stored and has no value, the other has an empty text. -/
theorem keys_alike_around_fields :
    let shared : List Key := [
      { name := "a : String[2]: x : \n", value := .text "\nName[3]: b : ", comment := some "]: " },
      { name := "", value := .binary [0x42, 0x5B, 0xFF], comment := some " : \n" }]
    let ks : KeySet := ⟨shared ++ [{ name := "c", needsSync := true }], by decide⟩
    let ls : KeySet := ⟨shared ++ [{ name := "c", value := .text "", comment := some "" }], by decide⟩
    let o : Options := { Options.debugDump with showMeta := true }
    (o.keyValue = true ∧ o.keyMeta = true ∧ (∀ k ∈ ks.keys, ShownInFull k.value) ∧
        (∀ l ∈ ls.keys, ShownInFull l.value) ∧
        ((keySet ks o).writeTo ({} : Memory)).2.contents =
          ((keySet ls o).writeTo ({} : Memory)).2.contents) ∧
      ks.size = ls.size ∧ List.Forall₂ ShownAlike ks.keys ls.keys := by
  intro shared ks ls o
  have full : ∀ k ∈ shared, ShownInFull k.value := by
    intro k mem data binary
    simp only [shared, List.mem_cons, List.not_mem_nil, or_false] at mem
    rcases mem with rfl | rfl
    · cases binary
    · cases binary
      decide
  have hk : ∀ k ∈ ks.keys, ShownInFull k.value := by
    intro k mem
    rcases List.mem_append.mp mem with inside | last
    · exact full k inside
    · rw [List.mem_singleton.mp last]
      rintro data ⟨⟩
  have hl : ∀ l ∈ ls.keys, ShownInFull l.value := by
    intro l mem
    rcases List.mem_append.mp mem with inside | last
    · exact full l inside
    · rw [List.mem_singleton.mp last]
      rintro data ⟨⟩
  have same : ((keySet ks o).writeTo ({} : Memory)).2.contents =
      ((keySet ls o).writeTo ({} : Memory)).2.contents := by
    rw [(Memory.writeTo_eq _ _).2, (Memory.writeTo_eq _ _).2]
    decide +kernel
  exact ⟨⟨rfl, rfl, hk, hl, same⟩, keys_alike_of_same_listing rfl rfl hk hl same⟩

end KeyExport.Dump
