import KeyExport.Json.Token

/-!
# The grammar of JSON

Which texts are values, apart from how they are read. A character of a string can be written in several
ways; what a string stands for are its characters. Halves of a character only come in pairs.
-/

namespace KeyExport.Json

def Blank (cs : List Char) : Prop := ∀ c ∈ cs, c = ' ' ∨ c = '\n' ∨ c = '\t' ∨ c = '\r'

/-! ## Strings -/

/-- A hexadecimal digit, in either case. -/
def HexDigit (v : Nat) (c : Char) : Prop :=
  v < 16 ∧ (c = Nat.digitChar v ∨ c = (Nat.digitChar v).toUpper)

/-- A number of 16 bits in four digits. -/
inductive Hex : Nat → List Char → Prop where
  | digits {a b c d : Nat} {w x y z : Char} (first : HexDigit a w) (second : HexDigit b x)
      (third : HexDigit c y) (fourth : HexDigit d z) :
    Hex (((a * 16 + b) * 16 + c) * 16 + d) [w, x, y, z]

/-- The escapes of one letter, and what they stand for. -/
def shortEscapes : List (Char × Char) :=
  [('"', '"'), ('\\', '\\'), ('/', '/'), ('b', '\x08'), ('f', '\x0C'), ('n', '\n'), ('r', '\r'),
    ('t', '\t')]

/-- The ways to write a character in a string. -/
inductive Spelling : Char → List Char → Prop where
  | plain {c : Char} (shows : 0x20 ≤ c.toNat) (unquoted : c ≠ '"') (unescaped : c ≠ '\\') :
    Spelling c [c]
  | short {e c : Char} (listed : (e, c) ∈ shortEscapes) : Spelling c ['\\', e]
  | unit {c : Char} {ds : List Char} (digits : Hex c.toNat ds) : Spelling c ('\\' :: 'u' :: ds)
  | pair {c : Char} {ds es : List Char} (beyond : 0x10000 ≤ c.toNat)
      (high : Hex (0xD800 + (c.toNat - 0x10000) / 0x400) ds)
      (low : Hex (0xDC00 + (c.toNat - 0x10000) % 0x400) es) :
    Spelling c ('\\' :: 'u' :: (ds ++ '\\' :: 'u' :: es))

/-- The ways to write characters one after the other. -/
inductive Spelled : List Char → List Char → Prop where
  | nil : Spelled [] []
  | cons {c : Char} {cs ds es : List Char} (first : Spelling c ds) (others : Spelled cs es) :
    Spelled (c :: cs) (ds ++ es)

/-- Characters that stand for themselves. -/
def isPlain (c : Char) : Bool := 0x20 ≤ c.toNat && c ≠ '"' && c ≠ '\\'

theorem spelled_of_plain {cs : List Char} (h : cs.all isPlain = true) : Spelled cs cs := by
  induction cs with
  | nil => exact .nil
  | cons c cs ih =>
    rw [List.all_cons, Bool.and_eq_true] at h
    obtain ⟨plain, others⟩ := h
    simp only [isPlain, Bool.and_eq_true, decide_eq_true_eq] at plain
    obtain ⟨⟨shows, unquoted⟩, unescaped⟩ := plain
    exact .cons (.plain shows unquoted unescaped) (ih others)

/-- A text in quotes. -/
inductive Literal (s : String) : List Char → Prop where
  | quoted {cs : List Char} (spelled : Spelled s.toList cs) : Literal s ('"' :: (cs ++ ['"']))

theorem literal_of_plain {s : String} (h : s.toList.all isPlain = true) :
    Literal s ('"' :: (s.toList ++ ['"'])) :=
  .quoted (spelled_of_plain h)

/-! ## Numbers -/

structure Digits (cs : List Char) : Prop where
  nonempty : cs ≠ []
  all : ∀ c ∈ cs, c.isDigit = true

/-- A zero stands alone. -/
structure Whole (cs : List Char) : Prop where
  digits : Digits cs
  lead : cs = ['0'] ∨ cs.head? ≠ some '0'

inductive Fraction : List Char → Prop where
  | none : Fraction []
  | digits {cs : List Char} (behind : Digits cs) : Fraction ('.' :: cs)

inductive Exponent : List Char → Prop where
  | none : Exponent []
  | digits {e : Char} {sign cs : List Char} (mark : e = 'e' ∨ e = 'E')
      (signed : sign = [] ∨ sign = ['+'] ∨ sign = ['-']) (behind : Digits cs) :
    Exponent (e :: (sign ++ cs))

inductive NumberText : List Char → Prop where
  | parts {sign whole fraction exponent : List Char} (signed : sign = [] ∨ sign = ['-'])
      (hw : Whole whole) (hf : Fraction fraction) (he : Exponent exponent) :
    NumberText (sign ++ (whole ++ (fraction ++ exponent)))

/-! ## Values -/

def boolText (b : Bool) : List Char := (if b then "true" else "false").toList

inductive Phrase where
  | value
  /-- A value with blanks around it. -/
  | element
  | elements
  | member
  | members

/-- The texts of each phrase. -/
inductive Derives : Phrase → List Char → Prop where
  | null : Derives .value "null".toList
  | bool (b : Bool) : Derives .value (boolText b)
  | number {cs : List Char} (h : NumberText cs) : Derives .value cs
  | string {s : String} {cs : List Char} (h : Literal s cs) : Derives .value cs
  | emptyArray {ws : List Char} (blank : Blank ws) : Derives .value ('[' :: (ws ++ [']']))
  | array {cs : List Char} (h : Derives .elements cs) : Derives .value ('[' :: (cs ++ [']']))
  | emptyObject {ws : List Char} (blank : Blank ws) : Derives .value ('\x7b' :: (ws ++ ['\x7d']))
  | object {cs : List Char} (h : Derives .members cs) : Derives .value ('\x7b' :: (cs ++ ['\x7d']))
  | element {before cs after : List Char} (hb : Blank before) (h : Derives .value cs)
      (ha : Blank after) : Derives .element (before ++ (cs ++ after))
  | lastElement {cs : List Char} (h : Derives .element cs) : Derives .elements cs
  | moreElements {cs ds : List Char} (h : Derives .element cs) (more : Derives .elements ds) :
    Derives .elements (cs ++ ',' :: ds)
  | member {name : String} {before cs after ds : List Char} (hb : Blank before) (hn : Literal name cs)
      (ha : Blank after) (h : Derives .element ds) :
    Derives .member (before ++ (cs ++ (after ++ ':' :: ds)))
  | lastMember {cs : List Char} (h : Derives .member cs) : Derives .members cs
  | moreMembers {cs ds : List Char} (h : Derives .member cs) (more : Derives .members ds) :
    Derives .members (cs ++ ',' :: ds)

/-! ## Objects by their members -/

/-- What a name stands for, and the text of the value. -/
structure Member where
  name : String
  value : List Char

inductive MemberText (m : Member) : List Char → Prop where
  | parts {before cs after ahead behind : List Char} (hb : Blank before) (hn : Literal m.name cs)
      (ha : Blank after) (hv : Blank ahead) (h : Derives .value m.value) (he : Blank behind) :
    MemberText m (before ++ (cs ++ (after ++ ':' :: (ahead ++ (m.value ++ behind)))))

inductive MembersText : List Member → List Char → Prop where
  | last {m : Member} {cs : List Char} (h : MemberText m cs) : MembersText [m] cs
  | more {m : Member} {ms : List Member} {cs ds : List Char} (h : MemberText m cs)
      (others : MembersText ms ds) : MembersText (m :: ms) (cs ++ ',' :: ds)

theorem MembersText.derives {ms : List Member} {cs : List Char} (h : MembersText ms cs) :
    Derives .members cs := by
  have single : ∀ {m : Member} {cs : List Char}, MemberText m cs → Derives .member cs := by
    rintro m cs ⟨hb, hn, ha, hv, h, he⟩
    exact .member hb hn ha (.element hv h he)
  induction h with
  | last h => exact .lastMember (single h)
  | more h others ih => exact .moreMembers (single h) ih

theorem exists_memberText {cs : List Char} (h : Derives .member cs) : ∃ m, MemberText m cs := by
  cases h with
  | @member name before cs after ds hb hn ha h =>
    cases h with
    | @element ahead value behind hv h he => exact ⟨⟨name, value⟩, .parts hb hn ha hv h he⟩

/-- All members are of this form. -/
theorem derives_members_iff {cs : List Char} : Derives .members cs ↔ ∃ ms, MembersText ms cs := by
  constructor
  · intro h
    generalize members : Phrase.members = p at h
    induction h with
    | lastMember h =>
      obtain ⟨m, single⟩ := exists_memberText h
      exact ⟨[m], .last single⟩
    | moreMembers h more first others =>
      obtain ⟨m, single⟩ := exists_memberText h
      obtain ⟨ms, rest⟩ := others rfl
      exact ⟨m :: ms, .more single rest⟩
    | _ => cases members
  · rintro ⟨ms, h⟩
    exact h.derives

inductive ObjectText : List Member → List Char → Prop where
  | empty {ws : List Char} (blank : Blank ws) : ObjectText [] ('\x7b' :: (ws ++ ['\x7d']))
  | members {ms : List Member} {cs : List Char} (h : MembersText ms cs) :
    ObjectText ms ('\x7b' :: (cs ++ ['\x7d']))

theorem not_numberText_brace (cs : List Char) : ¬NumberText ('\x7b' :: cs) := by
  intro h
  generalize text : '\x7b' :: cs = number at h
  obtain ⟨rfl | rfl, hw, hf, he⟩ := h
  · obtain ⟨d, ds, rfl⟩ := List.exists_cons_of_ne_nil hw.digits.nonempty
    obtain rfl := (List.cons.inj text).1
    exact absurd (hw.digits.all _ List.mem_cons_self) (by decide)
  · cases text

/-- Of the values those that start with a brace are objects, and objects are known by their members. -/
theorem derives_object_iff {cs : List Char} :
    Derives .value ('\x7b' :: cs) ↔ ∃ ms, ObjectText ms ('\x7b' :: cs) := by
  constructor
  · intro h
    generalize text : '\x7b' :: cs = value at h
    cases h with
    | emptyObject blank => exact ⟨[], .empty blank⟩
    | object h =>
      obtain ⟨ms, members⟩ := derives_members_iff.mp h
      exact ⟨ms, .members members⟩
    | number h => exact absurd (text ▸ h) (not_numberText_brace cs)
    | bool b => cases b <;> cases text
    | string h =>
      cases h
      cases text
    | null => cases text
    | emptyArray => cases text
    | array => cases text
  · rintro ⟨ms, h⟩
    generalize '\x7b' :: cs = text at h
    cases h with
    | empty blank => exact .emptyObject blank
    | members h => exact .object h.derives

end KeyExport.Json
