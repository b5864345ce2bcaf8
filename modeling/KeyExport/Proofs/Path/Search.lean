import KeyExport.Proofs.Path.Ascent
import KeyExport.Proofs.Text.Ascii

/-!
# The search for a common parent

One level up stands for a cut in the bytes of a path: the separators that are looked for from the end are
never part of a wide character.

The search is followed turn by turn. A turn is done with a path, or it takes away a separator that has a
segment behind it. So there are no more turns than paths to compare with and separators in the first path,
and then `common?` is what the search has come to.
-/

namespace KeyExport.Path

open Bytes (ofChars)

/-! ## The cut in the bytes -/

/-- A front of a path ends where a character ends. -/
theorem isValid_of_prefix {p q : Path} (front : q <+: p) :
    (⟨(ofChars q).length⟩ : String.Pos.Raw).IsValid (String.ofList p) := by
  obtain ⟨r, rfl⟩ := front
  apply String.Pos.Raw.isValid_iff_exists_append.mpr
  refine ⟨String.ofList q, String.ofList r, String.ofList_append, ?_⟩
  rw [← Bytes.ofString_ofList, Bytes.length_ofString]
  rfl

/-- `q` is cut out of `p`. In the bytes the cut is at the separator that stands before the last segment, or
behind it where that is the separator of a root; separators at the end do not count. -/
structure CutOut (p q : Path) : Prop where
  nonempty : q ≠ []
  shorter : (ofChars q).length < (ofChars p).length
  boundary : (⟨(ofChars q).length⟩ : String.Pos.Raw).IsValid (String.ofList p)
  place : ∃ up segment trailing,
    ofChars p = up ++ asciiByte separator :: (segment ++ List.replicate trailing (asciiByte separator)) ∧
      segment ≠ [] ∧ asciiByte separator ∉ segment ∧
      ofChars q = if up = [] ∨ up.getLast? = some (asciiByte ':') then up ++ [asciiByte separator] else up
  covers : q.covers p = true

theorem isAscii_separator : IsAscii separator := by decide

theorem cutOut_of_parent? {p q : Path} (parent : p.parent? = some q) : CutOut p q := by
  have covered := covers_of_parent? parent
  have front := prefix_of_covers covered
  have apart : p ≠ q := by
    rintro rfl
    exact Nat.lt_irrefl _ (parent?_length_lt parent)
  refine ⟨ne_nil_of_parent? parent, Bytes.length_ofChars_lt_of_prefix front apart,
    isValid_of_prefix front, ?_, covered⟩
  obtain ⟨up, segment, trailing, rfl, nonempty, whole, rfl⟩ := parent?_eq_some_iff.mp parent
  refine ⟨ofChars up, ofChars segment, trailing, ?_, ?_, ?_, ?_⟩
  · rw [Bytes.ofChars_append, Bytes.ofChars_cons_of_isAscii isAscii_separator, Bytes.ofChars_append,
      Bytes.ofChars_replicate_of_isAscii isAscii_separator]
  · intro none
    exact nonempty (Bytes.ofChars_injective none)
  · exact mt (Bytes.asciiByte_mem_ofChars_iff isAscii_separator).mp whole
  · have empty : ofChars up = [] ↔ up = [] := ⟨fun none => Bytes.ofChars_injective none, congrArg ofChars⟩
    have space : (ofChars up).getLast? = some (asciiByte ':') ↔ up.getLast? = some ':' :=
      Bytes.getLast?_ofChars_eq_some_iff (by decide)
    by_cases root : up = [] ∨ up.getLast? = some ':'
    · rw [if_pos root, if_pos ((or_congr empty space).mpr root), Bytes.ofChars_append,
        Bytes.ofChars_cons_of_isAscii isAscii_separator, Bytes.ofChars_nil]
    · rw [if_neg root, if_neg (mt (or_congr empty space).mp root)]

/-- The root of a namespace, with wide characters on both sides of the cut. -/
example : parent? "ä:/ö//".toList = some "ä:/".toList := by decide

/-! ## Levels -/

/-- How many separators have a segment behind them, at whatever distance. One cannot go up more often. -/
def levels (p : Path) : Nat := (p.reverse.dropWhile (· == separator)).count separator

theorem levels_le_count (p : Path) : p.levels ≤ p.count separator := by
  rw [← List.count_reverse]
  exact (List.dropWhile_sublist _).count_le separator

theorem levels_concat_separator (p : Path) : levels (p ++ [separator]) = p.levels := by
  simp [levels]

theorem levels_of_segment {up segment : Path} (nonempty : segment ≠ []) (whole : separator ∉ segment)
    (trailing : Nat) :
    levels (up ++ separator :: (segment ++ List.replicate trailing separator)) = up.count separator + 1 := by
  have head : (segment.reverse ++ separator :: up.reverse).head? ≠ some separator := by
    intro first
    rw [List.head?_append_of_ne_nil _ (mt List.reverse_eq_nil_iff.mp nonempty)] at first
    exact whole (List.mem_reverse.mp (List.mem_of_head? first))
  have back : (up ++ separator :: (segment ++ List.replicate trailing separator)).reverse =
      List.replicate trailing separator ++ (segment.reverse ++ separator :: up.reverse) := by simp
  rw [levels, back, Text.dropWhile_run trailing head, List.count_append, List.count_reverse,
    List.count_eq_zero.mpr whole, List.count_cons_self, List.count_reverse, Nat.zero_add]

theorem levels_lt_of_parent? {p q : Path} (parent : p.parent? = some q) : q.levels < p.levels := by
  obtain ⟨up, segment, trailing, rfl, nonempty, whole, rfl⟩ := parent?_eq_some_iff.mp parent
  rw [levels_of_segment nonempty whole]
  apply Nat.lt_succ_of_le
  split
  · -- a root: the separator that it keeps is at its end
    rw [levels_concat_separator]
    exact levels_le_count up
  · exact levels_le_count up

/-! ## Turns -/

theorem climb_of_not_covers {p n : Path} (apart : ¬p.covers n = true) :
    climb p n = p.parent?.bind (climb · n) := by
  rw [climb, if_neg apart]
  split
  · next none => rw [none, Option.bind_none]
  · next parent => rw [parent, Option.bind_some]

/-- The candidate of a search, and the paths that it is still to be compared with. -/
structure Search where
  candidate : Path
  others : List Path

namespace Search

/-- A candidate that covers the next path is done with it. Otherwise it is given up for its parent. -/
def turn? : Search → Option Search
  | ⟨_, []⟩ => none
  | ⟨p, n :: ns⟩ => if p.covers n then some ⟨p, ns⟩ else p.parent?.map (⟨·, n :: ns⟩)

/-- What a search that is at its end has found: nothing if it could not go further up. -/
def found? (s : Search) : Option Path := if s.others = [] then some s.candidate else none

/-- What the search will find, all at once. -/
def climbed? (s : Search) : Option Path := s.others.foldlM climb s.candidate

/-- There are no more turns than this. -/
def turnsLeft (s : Search) : Nat := s.others.length + s.candidate.levels

/-- `k` turns lead from one search to the other. -/
inductive Turns : Nat → Search → Search → Prop where
  | none (s : Search) : Turns 0 s s
  | next {k : Nat} {s t u : Search} (turn : s.turn? = some t) (rest : Turns k t u) : Turns (k + 1) s u

theorem turn?_cons_of_covers {p n : Path} (ns : List Path) (covered : p.covers n = true) :
    turn? ⟨p, n :: ns⟩ = some ⟨p, ns⟩ := if_pos covered

theorem turn?_cons_of_not_covers {p n : Path} (ns : List Path) (apart : ¬p.covers n = true) :
    turn? ⟨p, n :: ns⟩ = p.parent?.map (⟨·, n :: ns⟩) := if_neg apart

theorem climbed?_cons (p n : Path) (ns : List Path) :
    climbed? ⟨p, n :: ns⟩ = (climb p n).bind fun q => climbed? ⟨q, ns⟩ := rfl

theorem turn?_eq_some {s t : Search} (turn : s.turn? = some t) :
    ∃ p n ns, s = ⟨p, n :: ns⟩ ∧ ((p.covers n = true ∧ t = ⟨p, ns⟩) ∨
      (¬p.covers n = true ∧ ∃ q, p.parent? = some q ∧ t = ⟨q, n :: ns⟩)) := by
  obtain ⟨p, ns⟩ := s
  cases ns with
  | nil => cases turn
  | cons n ns =>
    refine ⟨p, n, ns, rfl, ?_⟩
    by_cases covered : p.covers n = true
    · rw [turn?_cons_of_covers ns covered] at turn
      exact .inl ⟨covered, (Option.some.inj turn).symm⟩
    · rw [turn?_cons_of_not_covers ns covered] at turn
      obtain ⟨q, parent, same⟩ := Option.map_eq_some_iff.mp turn
      exact .inr ⟨covered, q, parent, same.symm⟩

/-- No turn changes what will be found. -/
theorem climbed?_of_turn? {s t : Search} (turn : s.turn? = some t) : t.climbed? = s.climbed? := by
  obtain ⟨p, n, ns, rfl, ⟨covered, rfl⟩ | ⟨apart, q, parent, rfl⟩⟩ := turn?_eq_some turn
  · rw [climbed?_cons, climb_of_covers covered, Option.bind_some]
  · rw [climbed?_cons, climbed?_cons, climb_of_not_covers apart, parent, Option.bind_some]

theorem turnsLeft_lt_of_turn? {s t : Search} (turn : s.turn? = some t) : t.turnsLeft < s.turnsLeft := by
  obtain ⟨p, n, ns, rfl, ⟨-, rfl⟩ | ⟨-, q, parent, rfl⟩⟩ := turn?_eq_some turn
  · exact Nat.add_lt_add_right ns.length.lt_succ_self p.levels
  · exact Nat.add_lt_add_left (levels_lt_of_parent? parent) (n :: ns).length

/-- At the end there is nothing more to find: no path is left, or there is no way up to one that covers the
next. -/
theorem climbed?_eq_found? {s : Search} (stopped : s.turn? = none) : s.climbed? = s.found? := by
  obtain ⟨p, ns⟩ := s
  cases ns with
  | nil => rfl
  | cons n ns =>
    have apart : ¬p.covers n = true := by
      intro covered
      rw [turn?_cons_of_covers ns covered] at stopped
      cases stopped
    rw [turn?_cons_of_not_covers ns apart, Option.map_eq_none_iff] at stopped
    rw [climbed?_cons, climb_of_not_covers apart, stopped]
    rfl

theorem Turns.climbed?_eq {k : Nat} {s t : Search} (turns : Turns k s t) : t.climbed? = s.climbed? := by
  induction turns with
  | none => rfl
  | next turn _ ih => exact ih.trans (climbed?_of_turn? turn)

theorem Turns.bounded {k : Nat} {s t : Search} (turns : Turns k s t) :
    k + t.turnsLeft ≤ s.turnsLeft := by
  induction turns with
  | none => omega
  | next turn _ ih =>
    have fewer := turnsLeft_lt_of_turn? turn
    omega

theorem exists_end (s : Search) : ∃ k t, Turns k s t ∧ t.turn? = none := by
  cases turn : s.turn? with
  | none => exact ⟨0, s, .none s, turn⟩
  | some t =>
    have fewer := turnsLeft_lt_of_turn? turn
    obtain ⟨k, u, turns, stopped⟩ := t.exists_end
    exact ⟨k + 1, u, .next turn turns, stopped⟩
termination_by s.turnsLeft

end Search

/-- Covering is an order in which the paths that cover one path are a chain. One level up leads to a path
that is not empty, is cut out between characters and lies above. And the search for a common parent ends: it
takes no more turns than there are paths to compare with and separators in the first path. -/
theorem ancestry_is_order_and_search_ends :
    (∀ p : Path, p.covers p = true) ∧
      (∀ p q : Path, p.covers q = true → q.covers p = true → p = q) ∧
      (∀ p q n : Path, p.covers q = true → q.covers n = true → p.covers n = true) ∧
      (∀ p q n : Path, p.covers n = true → q.covers n = true → p.covers q = true ∨ q.covers p = true) ∧
      (∀ p q : Path, p.parent? = some q → CutOut p q) ∧
      ∀ (p : Path) (ns : List Path), ∃ k t,
        Search.Turns k ⟨p, ns⟩ t ∧ t.turn? = none ∧ k ≤ ns.length + p.count separator ∧
          common? (p :: ns) = t.found?.filter (· ≠ []) := by
  refine ⟨covers_refl, ?_, ?_, ?_, ?_, ?_⟩
  · intro p q upper lower
    exact covers_antisymm upper lower
  · intro p q n upper lower
    exact covers_trans upper lower
  · intro p q n first second
    exact covers_or_covers first second
  · intro p q parent
    exact cutOut_of_parent? parent
  · intro p ns
    obtain ⟨k, t, turns, stopped⟩ := Search.exists_end ⟨p, ns⟩
    have bound : k + t.turnsLeft ≤ ns.length + p.levels := turns.bounded
    have separators := p.levels_le_count
    refine ⟨k, t, turns, stopped, by omega, ?_⟩
    rw [← Search.climbed?_eq_found? stopped, turns.climbed?_eq]
    rfl

end KeyExport.Path
