import KeyExport.Options.Load
import KeyExport.Proofs.Json.Skip
import Mathlib.Logic.Function.Basic

/-!
# Loading by name

An object that names some switches, each of them once, is loaded as the options with just those switches
turned as it says. The order of its members, members of other names and whitespace do not matter.
-/

namespace KeyExport.Options

open Json

/-- What the members say: of those that have the name of a switch there is one if the switch is assigned,
with this value, and none otherwise. -/
def Assigns (assigned : Switch → Option Bool) (ms : List Member) : Prop :=
  ∀ s : Switch, (ms.filter (·.name = s.memberName)).map (·.value) = (assigned s).toList.map boolText

/-- The text of an object that assigns these switches, with blanks around it. -/
def Configures (assigned : Switch → Option Bool) (text : String) : Prop :=
  ∃ before cs after ms, text.toList = before ++ (cs ++ after) ∧ Blank before ∧ Blank after ∧
    ObjectText ms cs ∧ Assigns assigned ms

/-! ## Members and what they say -/

theorem memberName_injective {s t : Switch} (same : s.memberName = t.memberName) : s = t := by
  have found := Switch.ofMemberName?_memberName s
  rw [same, Switch.ofMemberName?_memberName] at found
  exact (Option.some.inj found).symm

theorem ofMemberName?_eq_none {name : String} (other : ∀ s : Switch, name ≠ s.memberName) :
    Switch.ofMemberName? name = none := by
  rw [Switch.ofMemberName?, List.find?_eq_none]
  intro s _ same
  exact other s (of_decide_eq_true same).symm

theorem Assigns.eq_none {assigned : Switch → Option Bool} (h : Assigns assigned []) (s : Switch) :
    assigned s = none := by
  have agrees := h s
  cases given : assigned s with
  | none => rfl
  | some b => simp [given] at agrees

/-- The member of a switch says what is assigned to it; those behind it do not name it again. -/
theorem Assigns.tail_of_switch {assigned : Switch → Option Bool} {m : Member} {ms : List Member}
    (h : Assigns assigned (m :: ms)) {s : Switch} (named : m.name = s.memberName) :
    ∃ b, m.value = boolText b ∧ assigned s = some b ∧
      Assigns (Function.update assigned s none) ms := by
  have agrees := h s
  rw [List.filter_cons_of_pos (by simp [named]), List.map_cons] at agrees
  cases given : assigned s with
  | none => simp [given] at agrees
  | some b =>
    simp only [given, Option.toList_some, List.map_cons, List.map_nil, List.cons.injEq] at agrees
    obtain ⟨value, once⟩ := agrees
    refine ⟨b, value, rfl, fun t => ?_⟩
    by_cases same : t = s
    · rw [same, Function.update_self]
      exact once
    · have others := h t
      have apart : ¬m.name = t.memberName := fun equal =>
        same (memberName_injective (equal.symm.trans named))
      rw [Function.update_of_ne same]
      rwa [List.filter_cons_of_neg (by simpa using apart)] at others

theorem Assigns.tail_of_other {assigned : Switch → Option Bool} {m : Member} {ms : List Member}
    (h : Assigns assigned (m :: ms)) (other : ∀ s : Switch, m.name ≠ s.memberName) :
    Assigns assigned ms := by
  intro s
  have agrees := h s
  rwa [List.filter_cons_of_neg (by simpa using other s)] at agrees

namespace Reading

/-! ## One member -/

/-- The reader while it passes over a value. -/
def skipping (r : Reading) (k : Skip) : Reading :=
  { r with stage := if k.isDone then .afterMember else .otherValue k }

theorem follows_skipping (r : Reading) : Follows step r.skipping := by
  intro k t k' more next
  simp only [skipping, more, Bool.false_eq_true, ↓reduceIte, step, next, goto]

variable {o : Options} {named : List Switch} {stage : Stage}

theorem step_switchName {ps : List Piece} {s : Switch} (expects : stage = .firstName ∨ stage = .name)
    (stands : text? ps = some s.memberName) (fresh : s ∉ named) :
    step ⟨o, named, stage⟩ (.string ps) = .ok ⟨o, named, .colon s⟩ := by
  rcases expects with rfl | rfl <;>
    simp only [step, readName, stands, Switch.ofMemberName?_memberName, if_neg fresh, goto]

theorem step_otherName {ps : List Piece} {name : String} (expects : stage = .firstName ∨ stage = .name)
    (stands : text? ps = some name) (other : ∀ s : Switch, name ≠ s.memberName) :
    step ⟨o, named, stage⟩ (.string ps) = .ok ⟨o, named, .otherColon⟩ := by
  rcases expects with rfl | rfl <;>
    simp only [step, readName, stands, ofMemberName?_eq_none other, goto]

theorem token?_boolText (b : Bool) (rest : List Char) :
    token? (boolText b ++ rest) = some (.bool b, rest) := by
  cases b <;> rfl

theorem scan_switch {m : Member} {cs : List Char} (h : MemberText m cs) {s : Switch} {b : Bool}
    (name : m.name = s.memberName) (value : m.value = boolText b) (fresh : s ∉ named)
    (expects : stage = .firstName ∨ stage = .name) (rest : List Char) :
    scan step .malformed ⟨o, named, stage⟩ (cs ++ rest) =
      scan step .malformed ⟨o.set s b, s :: named, .afterMember⟩ rest := by
  obtain ⟨hb, hn, ha, hv, -, he⟩ := h
  obtain ⟨ps, read, stands⟩ := exists_token?_literal hn
  rw [name] at stands
  simp only [List.append_assoc, List.cons_append, value]
  rw [scan_blank hb, scan_ok (read _) (step_switchName expects stands fresh), scan_blank ha,
    scan_ok (t := .colon) rfl rfl, scan_blank hv, scan_ok (token?_boolText b _) rfl, scan_blank he]

theorem scan_other {m : Member} {cs : List Char} (h : MemberText m cs)
    (other : ∀ s : Switch, m.name ≠ s.memberName) (expects : stage = .firstName ∨ stage = .name)
    {rest : List Char} (stops : Stops rest) :
    scan step .malformed ⟨o, named, stage⟩ (cs ++ rest) =
      scan step .malformed ⟨o, named, .afterMember⟩ rest := by
  obtain ⟨hb, hn, ha, hv, hm, he⟩ := h
  obtain ⟨ps, read, stands⟩ := exists_token?_literal hn
  simp only [List.append_assoc, List.cons_append]
  rw [scan_blank hb, scan_ok (read _) (step_otherName expects stands other), scan_blank ha,
    scan_ok (t := .colon) rfl rfl, scan_blank hv]
  -- the state before the value stands for a value of which nothing has been read
  exact Eq.trans
    (scan_phrase (follows_skipping ⟨o, named, stage⟩) hm (k := {}) (.inl rfl) (stops.blank_append he))
    (scan_blank he rest)

/-- After a member the others are left, and what they assign completes the options as before. -/
theorem exists_scan_member {m : Member} {cs : List Char} (h : MemberText m cs) {ms : List Member}
    {assigned : Switch → Option Bool} (assigns : Assigns assigned (m :: ms))
    (fresh : ∀ s ∈ named, assigned s = none) (expects : stage = .firstName ∨ stage = .name)
    {rest : List Char} (stops : Stops rest) :
    ∃ p seen left, scan step .malformed ⟨o, named, stage⟩ (cs ++ rest) =
        scan step .malformed ⟨p, seen, .afterMember⟩ rest ∧
      Assigns left ms ∧ (∀ s ∈ seen, left s = none) ∧
      ∀ s, (left s).getD (p.get s) = (assigned s).getD (o.get s) := by
  by_cases known : ∃ s : Switch, m.name = s.memberName
  · obtain ⟨s, name⟩ := known
    obtain ⟨b, value, given, left⟩ := assigns.tail_of_switch name
    -- nothing is left to assign to switches that have been named, so this one is no duplicate
    have new : s ∉ named := by
      intro mem
      simp [fresh s mem] at given
    refine ⟨o.set s b, s :: named, _, scan_switch h name value new expects rest, left, ?_, ?_⟩
    · intro t mem
      by_cases same : t = s
      · rw [same, Function.update_self]
      · rw [Function.update_of_ne same]
        exact fresh t (List.mem_of_ne_of_mem same mem)
    · intro t
      by_cases same : t = s
      · simp [same, given]
      · simp [same]
  · rw [not_exists] at known
    exact ⟨o, named, assigned, scan_other h known expects stops, assigns.tail_of_other known, fresh,
      fun s => rfl⟩

/-! ## All members -/

theorem exists_scan_members {ms : List Member} {cs : List Char} (h : MembersText ms cs)
    {assigned : Switch → Option Bool} (assigns : Assigns assigned ms)
    (fresh : ∀ s ∈ named, assigned s = none) (expects : stage = .firstName ∨ stage = .name)
    {rest : List Char} (stops : Stops rest) :
    ∃ p seen, scan step .malformed ⟨o, named, stage⟩ (cs ++ rest) =
        scan step .malformed ⟨p, seen, .afterMember⟩ rest ∧
      ∀ s, p.get s = (assigned s).getD (o.get s) := by
  induction h generalizing o named stage assigned with
  | last h =>
    obtain ⟨p, seen, left, first, nothing, -, agrees⟩ := exists_scan_member h assigns fresh expects stops
    refine ⟨p, seen, first, fun s => ?_⟩
    rw [← agrees s, nothing.eq_none s, Option.getD_none]
  | @more m ms cs ds h others ih =>
    have comma : Stops (',' :: (ds ++ rest)) := stops_cons (by decide) _
    obtain ⟨p, seen, left, first, later, fresh, agrees⟩ := exists_scan_member h assigns fresh expects comma
    obtain ⟨q, seen, second, agrees'⟩ := ih later fresh (.inr rfl)
    refine ⟨q, seen, ?_, fun s => (agrees' s).trans (agrees s)⟩
    rw [List.append_assoc, List.cons_append, first, scan_ok (t := .comma) rfl rfl, second]

theorem exists_scan_object {ms : List Member} {cs : List Char} (h : ObjectText ms cs)
    {assigned : Switch → Option Bool} (assigns : Assigns assigned ms) (rest : List Char) :
    ∃ p seen, scan step .malformed {} (cs ++ rest) = scan step .malformed ⟨p, seen, .done⟩ rest ∧
      ∀ s, p.get s = (assigned s).getD false := by
  have off : ∀ s, ({} : Options).get s = false := by
    intro s
    cases s <;> rfl
  cases h with
  | empty blank =>
    refine ⟨{}, [], ?_, fun s => ?_⟩
    · rw [List.cons_append, List.append_assoc, List.singleton_append,
        scan_ok (t := .openObject) rfl rfl, scan_blank blank, scan_ok (t := .closeObject) rfl rfl]
    · rw [assigns.eq_none s, off s, Option.getD_none]
  | members h =>
    have fresh : ∀ s ∈ ([] : List Switch), assigned s = none := by simp
    have brace : Stops ('\x7d' :: rest) := stops_cons (by decide) rest
    obtain ⟨p, seen, read, agrees⟩ := exists_scan_members (o := {}) h assigns fresh (.inl rfl) brace
    refine ⟨p, seen, ?_, fun s => ?_⟩
    · rw [List.cons_append, List.append_assoc, List.singleton_append,
        scan_ok (t := .openObject) rfl rfl]
      exact read.trans (scan_ok (t := .closeObject) rfl rfl)
    · rw [agrees s, off s]

end Reading

theorem exists_load {assigned : Switch → Option Bool} {text : String} (h : Configures assigned text) :
    ∃ o, load text = .ok o ∧ ∀ s, o.get s = (assigned s).getD false := by
  obtain ⟨before, cs, after, ms, whole, hb, ha, object, assigns⟩ := h
  obtain ⟨p, seen, read, agrees⟩ := Reading.exists_scan_object object assigns after
  refine ⟨p, ?_, agrees⟩
  rw [load, whole, scan_blank hb, read, scan_of_blank ha]
  rfl

/-! ## Options as text -/

/-- The member of a switch. -/
def member (o : Options) (s : Switch) : Member := ⟨s.memberName, boolText (o.get s)⟩

theorem spells_memberText (o : Options) (s : Switch) : MemberText (o.member s) (o.memberText s).toList := by
  have blank : Blank [] := by simp [Blank]
  have literal : Literal s.memberName ('"' :: (s.memberName.toList ++ ['"'])) :=
    literal_of_plain (by cases s <;> rfl)
  have parts := MemberText.parts (m := o.member s) blank literal blank blank (.bool (o.get s)) blank
  have written : (o.memberText s).toList =
      [] ++ ('"' :: (s.memberName.toList ++ ['"']) ++ ([] ++ ':' :: ([] ++ (boolText (o.get s) ++ [])))) := by
    simp [Options.memberText, boolText]
  rw [written]
  exact parts

theorem spells_members (o : Options) (s : Switch) (ss : List Switch) :
    MembersText ((s :: ss).map o.member) (",".intercalate ((s :: ss).map o.memberText)).toList := by
  induction ss generalizing s with
  | nil => simpa using MembersText.last (spells_memberText o s)
  | cons t ss ih =>
    have joined : ",".intercalate ((s :: t :: ss).map o.memberText) =
        o.memberText s ++ "," ++ ",".intercalate ((t :: ss).map o.memberText) :=
      String.intercalate_cons_cons
    have whole : (o.memberText s ++ "," ++ ",".intercalate ((t :: ss).map o.memberText)).toList =
        (o.memberText s).toList ++ ',' :: (",".intercalate ((t :: ss).map o.memberText)).toList := by
      simp
    rw [joined, whole]
    exact .more (spells_memberText o s) (ih t)

theorem assigns_json (o : Options) : Assigns (fun s => some (o.get s)) (Switch.all.map o.member) := by
  intro s
  have once : Switch.all.filter (fun t => t.memberName = s.memberName) = [s] := by
    cases s <;> decide
  have named : Switch.all.filter ((fun m : Member => decide (m.name = s.memberName)) ∘ o.member) = [s] :=
    once
  rw [List.filter_map, named]
  rfl

theorem configures_json (o : Options) : Configures (fun s => some (o.get s)) o.json := by
  have blank : Blank [] := by simp [Blank]
  refine ⟨[], _, [], _, ?_, blank, blank, .members (spells_members o .numbers Switch.all.tail), assigns_json o⟩
  simp [json]
  rfl

/-- An object that assigns some switches is loaded as the options with these switches as assigned and all
others off, whatever else it holds and however it is laid out; and options are loaded from their text.
Every object of the grammar is the text of some members, so these are all the texts there are. -/
theorem load_by_name :
    (∀ (assigned : Switch → Option Bool) (text : String), Configures assigned text →
      ∃ o, load text = .ok o ∧ ∀ s, o.get s = (assigned s).getD false) ∧
    (∀ o : Options, load o.json = .ok o) ∧
    ∀ cs, Derives .value ('\x7b' :: cs) ↔ ∃ ms, ObjectText ms ('\x7b' :: cs) := by
  refine ⟨fun assigned text => exists_load, fun o => ?_, fun cs => derives_object_iff⟩
  obtain ⟨p, read, agrees⟩ := exists_load (configures_json o)
  rw [read, ext_get agrees]

/-- A switch whose name has an escape, and two members of another name: one holds a number beyond all
others and the name of a switch, the other a character in two halves. -/
theorem load_around_other_members :
    let text :=
      "\x7b\"\\u0063ondensed\" : true,\"x\":[-1.5E+400,\x7b\"header\":null\x7d],\"x\":\"\\uD83D\\ude00\"\x7d\n"
    let assigned : Switch → Option Bool := fun s => if s = .condensed then some true else none
    Configures assigned text ∧
      ∃ o, load text = .ok o ∧ ∀ s, o.get s = (assigned s).getD false := by
  intro text assigned
  have tight : Blank [] := by simp [Blank]
  have space : Blank [' '] := by simp [Blank]
  have newline : Blank ['\n'] := by simp [Blank]
  have lower : ∀ v < 16, HexDigit v (Nat.digitChar v) := fun v small => ⟨small, .inl rfl⟩
  have upper : ∀ v < 16, HexDigit v (Nat.digitChar v).toUpper := fun v small => ⟨small, .inr rfl⟩
  have x : Literal "x" "\"x\"".toList := literal_of_plain rfl
  have header : Literal "header" "\"header\"".toList := literal_of_plain rfl
  have c : Spelling 'c' "\\u0063".toList :=
    .unit (.digits (a := 0) (b := 0) (c := 6) (d := 3) (lower 0 (by decide)) (lower 0 (by decide))
      (lower 6 (by decide)) (lower 3 (by decide)))
  have ondensed : Spelled "ondensed".toList "ondensed".toList := spelled_of_plain rfl
  have condensed : Literal "condensed" "\"\\u0063ondensed\"".toList :=
    .quoted (s := "condensed") (.cons c ondensed)
  have pair : Spelling '😀' "\\uD83D\\ude00".toList :=
    .pair (c := '😀') (by decide)
      (.digits (a := 13) (b := 8) (c := 3) (d := 13) (upper 13 (by decide)) (upper 8 (by decide))
        (upper 3 (by decide)) (upper 13 (by decide)))
      (.digits (a := 13) (b := 14) (c := 0) (d := 0) (lower 13 (by decide)) (lower 14 (by decide))
        (lower 0 (by decide)) (lower 0 (by decide)))
  have halves : Literal "😀" "\"\\uD83D\\ude00\"".toList := .quoted (s := "😀") (.cons pair .nil)
  have one : Whole ['1'] := ⟨⟨by decide, List.all_eq_true.mp rfl⟩, .inr (by decide)⟩
  have fraction : Fraction ".5".toList := .digits ⟨by decide, List.all_eq_true.mp rfl⟩
  have exponent : Exponent "E+400".toList :=
    .digits (.inr rfl) (.inr (.inl rfl)) (⟨by decide, List.all_eq_true.mp rfl⟩ : Digits "400".toList)
  have number : NumberText "-1.5E+400".toList := .parts (.inr rfl) one fraction exponent
  have object : Derives .value "\x7b\"header\":null\x7d".toList :=
    .object (.lastMember (.member tight header tight (.element tight .null tight)))
  have array : Derives .value "[-1.5E+400,\x7b\"header\":null\x7d]".toList :=
    .array (.moreElements (.element tight (.number number) tight)
      (.lastElement (.element tight object tight)))
  have configures : Configures assigned text :=
    ⟨[], _, ['\n'], [⟨"condensed", boolText true⟩, ⟨"x", "[-1.5E+400,\x7b\"header\":null\x7d]".toList⟩,
        ⟨"x", "\"\\uD83D\\ude00\"".toList⟩], by unfold text; rfl, tight, newline,
      .members
        (.more (.parts tight condensed space space (.bool true) tight)
          (.more (.parts tight x tight tight array tight)
            (.last (.parts tight x tight tight (.string halves) tight)))),
      by intro s; cases s <;> rfl⟩
  exact ⟨configures, load_by_name.1 assigned text configures⟩

end KeyExport.Options
