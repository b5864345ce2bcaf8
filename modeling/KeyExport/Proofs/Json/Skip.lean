import KeyExport.Json.Skip
import KeyExport.Proofs.Json.Lexing

/-!
# Values that are passed over

Passing over a value takes exactly that value, however deep it is nested. Inside, elements and members
leave the containers that are open as they are and wait for a comma or the end.
-/

namespace KeyExport.Json

theorem stops_cons {c : Char} (h : c.isDigit = false ∧ c ≠ '.' ∧ c ≠ 'e' ∧ c ≠ 'E') (cs : List Char) :
    Stops (c :: cs) := by
  rintro d ⟨⟩
  exact h

theorem Stops.blank_append {ws cs : List Char} (blank : Blank ws) (stops : Stops cs) :
    Stops (ws ++ cs) := by
  cases ws with
  | nil => exact stops
  | cons c ws =>
    refine stops_cons ?_ _
    rcases blank c List.mem_cons_self with rfl | rfl | rfl | rfl <;> decide

/-- Where a phrase may stand. -/
def Phrase.Fits : Phrase → Skip → Prop
  | value, k | element, k => k.expect = .value ∨ k.expect = .valueOrEnd
  | elements, k => (k.expect = .value ∨ k.expect = .valueOrEnd) ∧ k.opened.head? = some .array
  | member, k | members, k =>
    (k.expect = .name ∨ k.expect = .nameOrEnd) ∧ k.opened.head? = some .object

namespace Container

/-- A container around what it holds. -/
def enclose : Container → List Char → List Char
  | array, cs => '[' :: (cs ++ [']'])
  | object, cs => '\x7b' :: (cs ++ ['\x7d'])

/-- What may come first in a container. -/
def first : Container → Expect
  | array => .valueOrEnd
  | object => .nameOrEnd

end Container

namespace Skip

variable {k : Skip}

/-- Where passing over a phrase leads. -/
def behind (k : Skip) : Skip := { k with expect := .commaOrEnd }

theorem isDone_eq_false (more : k.expect ≠ .commaOrEnd) : k.isDone = false := by
  simp [isDone, more]

theorem step?_begin (fits : Phrase.value.Fits k) {t : Token} (other : t ≠ .closeArray) :
    k.step? t = begin? k.opened t := by
  obtain ⟨opened, expect⟩ := k
  rcases fits with rfl | rfl
  · rfl
  · cases t with
    | closeArray => exact absurd rfl other
    | _ => rfl

end Skip

section
variable {α ε : Type} {step : α → Token → Except ε α} {bad : ε} {f : Skip → α}

/-- The reader passes over values, each of its states `f k` standing for one of a value. -/
def Follows (step : α → Token → Except ε α) (f : Skip → α) : Prop :=
  ∀ k t k', k.isDone = false → k.step? t = some k' → step (f k) t = .ok (f k')

variable (follows : Follows step f)

include follows

theorem scan_begin {k k' : Skip} (fits : Phrase.value.Fits k) {t : Token} {cs rest : List Char}
    (read : token? cs = some (t, rest)) (begins : Skip.begin? k.opened t = some k') :
    scan step bad (f k) cs = scan step bad (f k') rest := by
  have more : k.expect ≠ .commaOrEnd := by rcases fits with h | h <;> simp [h]
  have other : t ≠ .closeArray := by
    rintro rfl
    cases begins
  exact scan_ok read (follows k t k' (Skip.isDone_eq_false more) ((Skip.step?_begin fits other).trans begins))

theorem scan_inside {opened : List Container} {c : Container} {expect : Expect} {k' : Skip} {t : Token}
    {cs rest : List Char} (read : token? cs = some (t, rest))
    (next : Skip.step? ⟨c :: opened, expect⟩ t = some k') :
    scan step bad (f ⟨c :: opened, expect⟩) cs = scan step bad (f k') rest :=
  scan_ok read (follows _ t k' rfl next)

/-- A container is passed over when what it holds is. -/
theorem scan_enclose (c : Container) {k : Skip} (fits : Phrase.value.Fits k) {cs : List Char}
    {expect : Expect} (last : expect = c.first ∨ expect = .commaOrEnd)
    (inside : ∀ after, Stops after →
      scan step bad (f ⟨c :: k.opened, c.first⟩) (cs ++ after) =
        scan step bad (f ⟨c :: k.opened, expect⟩) after)
    (rest : List Char) :
    scan step bad (f k) (c.enclose cs ++ rest) = scan step bad (f k.behind) rest := by
  cases c with
  | array =>
    have ends : Skip.step? ⟨.array :: k.opened, expect⟩ .closeArray = some k.behind := by
      rcases last with rfl | rfl <;> rfl
    rw [Container.enclose, List.cons_append, List.append_assoc, List.singleton_append]
    calc scan step bad (f k) ('[' :: (cs ++ ']' :: rest))
      _ = scan step bad (f ⟨.array :: k.opened, .valueOrEnd⟩) (cs ++ ']' :: rest) :=
        scan_begin follows fits (t := .openArray) rfl rfl
      _ = scan step bad (f ⟨.array :: k.opened, expect⟩) (']' :: rest) :=
        inside _ (stops_cons (by decide) rest)
      _ = scan step bad (f k.behind) rest := scan_inside follows rfl ends
  | object =>
    have ends : Skip.step? ⟨.object :: k.opened, expect⟩ .closeObject = some k.behind := by
      rcases last with rfl | rfl <;> rfl
    rw [Container.enclose, List.cons_append, List.append_assoc, List.singleton_append]
    calc scan step bad (f k) ('\x7b' :: (cs ++ '\x7d' :: rest))
      _ = scan step bad (f ⟨.object :: k.opened, .nameOrEnd⟩) (cs ++ '\x7d' :: rest) :=
        scan_begin follows fits (t := .openObject) rfl rfl
      _ = scan step bad (f ⟨.object :: k.opened, expect⟩) ('\x7d' :: rest) :=
        inside _ (stops_cons (by decide) rest)
      _ = scan step bad (f k.behind) rest := scan_inside follows rfl ends

/-- A name and the colon behind it. -/
theorem scan_name {opened : List Container} {expect : Expect}
    (fits : expect = .name ∨ expect = .nameOrEnd) {name : String} {before cs after : List Char}
    (hb : Blank before) (hn : Literal name cs) (ha : Blank after) (rest : List Char) :
    scan step bad (f ⟨.object :: opened, expect⟩) (before ++ (cs ++ (after ++ ':' :: rest))) =
      scan step bad (f ⟨.object :: opened, .value⟩) rest := by
  obtain ⟨ps, read, -⟩ := exists_token?_literal hn
  have named : Skip.step? ⟨.object :: opened, expect⟩ (.string ps) =
      some ⟨.object :: opened, .colon⟩ := by
    rcases fits with rfl | rfl <;> rfl
  rw [scan_blank hb, scan_inside follows (read _) named, scan_blank ha]
  exact scan_inside follows (t := .colon) rfl rfl

/-- A phrase is passed over as a whole. -/
theorem scan_phrase {p : Phrase} {cs : List Char} (h : Derives p cs) {k : Skip} (fits : p.Fits k)
    {rest : List Char} (stops : Stops rest) :
    scan step bad (f k) (cs ++ rest) = scan step bad (f k.behind) rest := by
  -- the containers that are open differ from phrase to phrase, what follows as well
  induction h generalizing k rest with
  | null => exact scan_begin follows fits (t := .null) rfl rfl
  | bool b =>
    cases b with
    | true => exact scan_begin follows fits (t := .bool true) rfl rfl
    | false => exact scan_begin follows fits (t := .bool false) rfl rfl
  | number h =>
    obtain ⟨n, read⟩ := exists_token?_number h stops
    exact scan_begin follows fits read rfl
  | string h =>
    obtain ⟨ps, read, -⟩ := exists_token?_literal h
    exact scan_begin follows fits (read rest) rfl
  | emptyArray blank =>
    exact scan_enclose follows .array fits (.inl rfl) (fun after _ => scan_blank blank after) rest
  | array h ih =>
    exact scan_enclose follows .array fits (.inr rfl) (fun after => ih ⟨.inr rfl, rfl⟩) rest
  | emptyObject blank =>
    exact scan_enclose follows .object fits (.inl rfl) (fun after _ => scan_blank blank after) rest
  | object h ih =>
    exact scan_enclose follows .object fits (.inr rfl) (fun after => ih ⟨.inr rfl, rfl⟩) rest
  | element hb h ha ih =>
    rw [List.append_assoc, List.append_assoc, scan_blank hb, ih fits (stops.blank_append ha),
      scan_blank ha]
  | lastElement h ih => exact ih fits.1 stops
  | @moreElements cs ds h more first others =>
    obtain ⟨opened, expect⟩ := k
    obtain ⟨fits, inside⟩ := fits
    obtain ⟨opened, rfl⟩ := List.head?_eq_some_iff.mp inside
    rw [List.append_assoc, List.cons_append]
    calc scan step bad (f ⟨.array :: opened, expect⟩) (cs ++ ',' :: (ds ++ rest))
      _ = scan step bad (f ⟨.array :: opened, .commaOrEnd⟩) (',' :: (ds ++ rest)) :=
        first fits (stops_cons (by decide) _)
      _ = scan step bad (f ⟨.array :: opened, .value⟩) (ds ++ rest) :=
        scan_inside follows (t := .comma) rfl rfl
      _ = scan step bad (f ⟨.array :: opened, .commaOrEnd⟩) rest := others ⟨.inl rfl, rfl⟩ stops
  | member hb hn ha h ih =>
    obtain ⟨opened, expect⟩ := k
    obtain ⟨fits, inside⟩ := fits
    obtain ⟨opened, rfl⟩ := List.head?_eq_some_iff.mp inside
    simp only [List.append_assoc, List.cons_append]
    rw [scan_name follows fits hb hn ha]
    exact ih (.inl rfl) stops
  | lastMember h ih => exact ih fits stops
  | @moreMembers cs ds h more first others =>
    obtain ⟨opened, expect⟩ := k
    obtain ⟨fits, inside⟩ := fits
    obtain ⟨opened, rfl⟩ := List.head?_eq_some_iff.mp inside
    rw [List.append_assoc, List.cons_append]
    calc scan step bad (f ⟨.object :: opened, expect⟩) (cs ++ ',' :: (ds ++ rest))
      _ = scan step bad (f ⟨.object :: opened, .commaOrEnd⟩) (',' :: (ds ++ rest)) :=
        first ⟨fits, rfl⟩ (stops_cons (by decide) _)
      _ = scan step bad (f ⟨.object :: opened, .name⟩) (ds ++ rest) :=
        scan_inside follows (t := .comma) rfl rfl
      _ = scan step bad (f ⟨.object :: opened, .commaOrEnd⟩) rest := others ⟨.inl rfl, rfl⟩ stops

end

end KeyExport.Json
