import KeyExport.KeySet
import Mathlib.Data.Finset.Card

/-!
# The history of a key set

However a set is built from keys that are fed to it, one by one or collected anew, it holds for every
name the last key of that name, at the place where the name came first. So a set is a map in the order
of its names, and collecting its own keys again changes nothing.
-/

namespace KeyExport.KeySet

/-! ## A single key -/

/-- A key takes the place of the one before. -/
theorem find?_replace_same {keys : List Key} {k : Key} (mem : k.name ∈ keys.map Key.name) :
    (keys.map fun old => if old.name = k.name then k else old).find? (·.name = k.name) = some k := by
  induction keys with
  | nil => cases mem
  | cons old rest ih =>
    by_cases here : old.name = k.name
    · simp [here]
    · have later : k.name ∈ rest.map Key.name := by
        rcases List.mem_cons.mp mem with same | later
        · exact absurd same.symm here
        · exact later
      rw [List.map_cons, if_neg here, List.find?_cons_of_neg (by simpa using here)]
      exact ih later

theorem find?_replace_other (keys : List Key) {k : Key} {name : String} (other : k.name ≠ name) :
    (keys.map fun old => if old.name = k.name then k else old).find? (·.name = name) =
      keys.find? (·.name = name) := by
  induction keys with
  | nil => rfl
  | cons old rest ih =>
    rw [List.map_cons, List.find?_cons, List.find?_cons, ih]
    by_cases here : old.name = k.name
    · rw [if_pos here, here]
      simp [other]
    · rw [if_neg here]

theorem lookup_append (ks : KeySet) (k : Key) (name : String) :
    (ks.append k).lookup name = if k.name = name then some k else ks.lookup name := by
  unfold append lookup
  by_cases same : k.name = name
  · subst same
    rw [if_pos rfl]
    split
    · next mem => exact find?_replace_same mem
    · next new =>
      have absent : ks.keys.find? (·.name = k.name) = none := by
        rw [List.find?_eq_none]
        intro old mem named
        exact new (List.mem_map.mpr ⟨old, mem, by simpa using named⟩)
      simp [List.find?_append, absent]
  · rw [if_neg same]
    split
    · exact find?_replace_other ks.keys same
    · simp [List.find?_append, same]

/-! ## Building a set -/

theorem appendAll_append (ks : KeySet) (first second : List Key) :
    ks.appendAll (first ++ second) = (ks.appendAll first).appendAll second :=
  List.foldl_append

/-- Keys of new names are put at the end. -/
theorem keys_appendAll_of_new {ks : KeySet} {keys : List Key}
    (distinct : (ks.names ++ keys.map Key.name).Nodup) : (ks.appendAll keys).keys = ks.keys ++ keys := by
  induction keys generalizing ks with
  | nil => simp [appendAll]
  | cons k rest ih =>
    have new : k.name ∉ ks.keys.map Key.name := by
      intro mem
      exact (List.nodup_append.mp distinct).2.2 _ mem _ List.mem_cons_self rfl
    have keys : (ks.append k).keys = ks.keys ++ [k] := by rw [KeySet.append, dif_neg new]
    have names : (ks.append k).names = ks.names ++ [k.name] := by
      rw [KeySet.names, keys, List.map_append]
      rfl
    show ((ks.append k).appendAll rest).keys = _
    rw [ih, keys, List.append_assoc, List.singleton_append]
    rwa [names, List.append_assoc, List.singleton_append]

/-- Collecting the keys of a set gives the set. -/
theorem ofList_keys (ks : KeySet) : ofList ks.keys = ks := by
  have keys : (ofList ks.keys).keys = ks.keys := keys_appendAll_of_new ks.nodup
  cases ks
  cases h : ofList _
  simp_all

/-- Sets that keys were fed to, starting from none: one after the other, or collected together with
those that a set holds already. -/
inductive Built : List Key → KeySet → Prop where
  | empty : Built [] .empty
  | append {fed : List Key} {ks : KeySet} (before : Built fed ks) (k : Key) :
    Built (fed ++ [k]) (ks.append k)
  | collect {fed : List Key} {ks : KeySet} (before : Built fed ks) (more : List Key) :
    Built (fed ++ more) (.ofList (ks.keys ++ more))

/-- The names of the keys fed, as they first came, and for each name the last key that came. -/
structure Follows (fed : List Key) (ks : KeySet) : Prop where
  names : ks.names = (fed.map Key.name).eraseDups
  lookup : ∀ name, ks.lookup name = fed.reverse.find? (·.name = name)

theorem eraseDups_concat (names : List String) (name : String) :
    (names ++ [name]).eraseDups =
      if name ∈ names then names.eraseDups else names.eraseDups ++ [name] := by
  rw [List.eraseDups_append]
  by_cases known : name ∈ names <;> simp [List.removeAll, List.eraseDups_cons, known]

theorem Follows.append {fed : List Key} {ks : KeySet} (before : Follows fed ks) (k : Key) :
    Follows (fed ++ [k]) (ks.append k) := by
  constructor
  · rw [names_append, before.names, List.map_append, List.map_singleton, eraseDups_concat]
    simp only [List.mem_eraseDups]
  · intro name
    rw [lookup_append, before.lookup, List.reverse_append]
    by_cases same : k.name = name <;> simp [same]

theorem Follows.appendAll {fed : List Key} {ks : KeySet} (before : Follows fed ks) (more : List Key) :
    Follows (fed ++ more) (ks.appendAll more) := by
  induction more generalizing fed ks with
  | nil => simpa [KeySet.appendAll] using before
  | cons k more ih =>
    have next := ih (before.append k)
    rwa [List.append_assoc] at next

theorem Built.follows {fed : List Key} {ks : KeySet} (built : Built fed ks) : Follows fed ks := by
  induction built with
  | empty => exact ⟨rfl, fun _ => rfl⟩
  | append before k ih => exact ih.append k
  | @collect fed ks before more ih =>
    -- the keys that the set holds already make the same set again, so only the others are fed to it
    have again : ofList (ks.keys ++ more) = ks.appendAll more := by
      rw [ofList, appendAll_append]
      exact congrArg (·.appendAll more) (ofList_keys ks)
    rw [again]
    exact ih.appendAll more

/-- A set as a map in the order of its names; a snapshot of the set is the set. -/
structure LastWins (fed : List Key) (ks : KeySet) : Prop where
  distinct : ks.names.Nodup
  order : ks.names = (fed.map Key.name).eraseDups
  lookup : ∀ name, ks.lookup name = fed.reverse.find? (·.name = name)
  size : ks.size = (fed.map Key.name).toFinset.card
  isEmpty : ks.isEmpty = true ↔ ks.size = 0
  get? : ∀ i (inside : i < ks.size), ks.get? i = some (ks.keys.get ⟨i, inside⟩)
  beyond : ∀ i, ks.size ≤ i → ks.get? i = none
  collected : ofList ks.keys = ks

/-- Whatever mix of appending and collecting built a set, the last key of each name is in it, at the
place where the name came first. -/
theorem last_wins_of_built {fed : List Key} {ks : KeySet} (built : Built fed ks) : LastWins fed ks := by
  have follows := built.follows
  have members : ks.names.toFinset = (fed.map Key.name).toFinset := by
    ext name
    rw [List.mem_toFinset, List.mem_toFinset, follows.names, List.mem_eraseDups]
  have length : ks.names.length = ks.size := List.length_map _
  refine ⟨ks.nodup_names, follows.names, follows.lookup, ?_, ?_, ?_, ?_, ofList_keys ks⟩
  · rw [← members, List.toFinset_card_of_nodup ks.nodup_names, length]
  · rw [isEmpty, List.isEmpty_iff, size, List.length_eq_zero_iff]
  · exact fun i inside => List.getElem?_eq_getElem inside
  · exact fun i past => List.getElem?_eq_none past

/-- The first key comes again, once alone and once with others that are collected. -/
theorem last_wins_for_repeated_names :
    let a : Key := { name := "a" }
    let b : Key := { name := "b", value := .text "1" }
    let first := KeySet.empty.append a
    let ks := (ofList (first.keys ++ [b, { a with value := .text "2" }])).append { a with uid := 3 }
    Built [a, b, { a with value := .text "2" }, { a with uid := 3 }] ks ∧
      LastWins [a, b, { a with value := .text "2" }, { a with uid := 3 }] ks := by
  intro a b first ks
  have built : Built [a, b, { a with value := .text "2" }, { a with uid := 3 }] ks :=
    ((Built.empty.append a).collect [b, { a with value := .text "2" }]).append { a with uid := 3 }
  exact ⟨built, last_wins_of_built built⟩

end KeyExport.KeySet
