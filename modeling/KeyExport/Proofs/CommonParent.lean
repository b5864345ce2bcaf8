import KeyExport.KeySet
import KeyExport.Proofs.Path.Segments

/-!
# The common parent of a key set

Among well-formed names the common parent is the deepest of all candidates that cover every name, so it
does not depend on the order of the keys. In general it does: it is looked for on the way up from the
first name only, and what the way up from one name passes the way up from another can miss.

As keys are added the common parent only moves up: the search goes on from where it stopped.
-/

namespace KeyExport

/-! ## Paths in any order -/

namespace Path

/-- The ways up from the paths meet: what covers them all and is passed on one of these ways is passed
on each. -/
def Confluent (ns : List Path) : Prop :=
  ∀ q, q ≠ [] → (∀ n ∈ ns, AtOrAbove q n) → (∃ n ∈ ns, Reaches n q) → ∀ n ∈ ns, Reaches n q

theorem Confluent.of_perm {ms ns : List Path} (same : ms.Perm ns) (h : Confluent ms) : Confluent ns := by
  intro q nonempty covered passed n mem
  obtain ⟨m, start, reached⟩ := passed
  refine h q nonempty ?_ ⟨m, same.mem_iff.mpr start, reached⟩ n (same.mem_iff.mpr mem)
  exact fun m mem => covered m (same.mem_iff.mp mem)

theorem confluent_of_wellFormed {ns : List Path} (wf : ∀ n ∈ ns, n.WellFormed) : Confluent ns := by
  intro q _ covered passed n mem
  obtain ⟨m, start, reached⟩ := passed
  exact ((wf m start).of_reaches reached).reaches (wf n mem) (covers_iff_atOrAbove.mpr (covered n mem))

theorem Confluent.reaches {ns : List Path} (h : Confluent ns) {m n q : Path} (hm : m ∈ ns) (hn : n ∈ ns)
    (nonempty : q ≠ []) (covered : ∀ k ∈ ns, q.covers k = true) (passed : Reaches m q) : Reaches n q :=
  h q nonempty (fun k mem => covers_iff_atOrAbove.mp (covered k mem)) ⟨m, hm, passed⟩ n hn

theorem common?_of_perm {ms ns : List Path} (same : ms.Perm ns) (confluent : Confluent ms) {q : Path}
    (found : common? ms = some q) : common? ns = some q := by
  cases ms with
  | nil => simp [common?] at found
  | cons m ms =>
    cases ns with
    | nil => simp at same
    | cons n ns =>
      rw [common?_eq_some_iff] at found ⊢
      obtain ⟨nonempty, nearest⟩ := found
      have start : n ∈ m :: ms := same.mem_iff.mpr List.mem_cons_self
      have reached := confluent.reaches List.mem_cons_self start nonempty nearest.covers nearest.reached
      refine ⟨nonempty, reached, fun k mem => nearest.covers k (same.mem_iff.mpr mem), ?_⟩
      intro r passed covered
      have below : n ≠ [] := by
        rintro rfl
        exact nonempty (eq_nil_of_covers_nil reached.covers)
      have all : ∀ k ∈ m :: ms, r.covers k = true := fun k mem => covered k (same.mem_iff.mp mem)
      exact nearest.first r
        (confluent.reaches start List.mem_cons_self (passed.ne_nil below) all passed) all

theorem common?_eq_of_perm {ms ns : List Path} (same : ms.Perm ns) (confluent : Confluent ms) :
    common? ms = common? ns := by
  apply Option.ext
  intro q
  exact ⟨common?_of_perm same confluent, common?_of_perm same.symm (confluent.of_perm same)⟩

theorem reaches_of_common?_eq {m n q : Path} {ms ns : List Path}
    (agree : common? (m :: ms) = common? (n :: ns)) (passed : Reaches m q) (nonempty : q ≠ [])
    (covered : ∀ k ∈ m :: ms, q.covers k = true) : Reaches n q := by
  obtain ⟨p, found, above⟩ := exists_common? passed nonempty covered
  rw [agree, common?_eq_some_iff] at found
  exact found.2.reached.trans above

/-- Of the paths only the first has a place; the others are a set. -/
theorem common?_cons_of_mem_iff {p : Path} {ms ns : List Path} (same : ∀ n, n ∈ p :: ms ↔ n ∈ p :: ns) :
    common? (p :: ms) = common? (p :: ns) := by
  apply Option.ext
  intro q
  rw [common?_eq_some_iff, common?_eq_some_iff]
  apply and_congr_right
  intro _
  exact ⟨.of_mem_iff same, .of_mem_iff fun n => (same n).symm⟩

end Path

namespace KeySet

/-- The names of the keys, as paths. -/
def paths (ks : KeySet) : List Path := ks.names.map String.toList

theorem mem_paths {ks : KeySet} {n : Path} : n ∈ ks.paths ↔ ∃ k ∈ ks.keys, k.name.toList = n := by
  simp [paths, names]

theorem forall_mem_paths {ks : KeySet} {holds : Path → Prop} :
    (∀ n ∈ ks.paths, holds n) ↔ ∀ k ∈ ks.keys, holds k.name.toList := by
  simp [paths, names]

theorem commonParent?_eq_some_iff {ks : KeySet} {p : String} :
    ks.commonParent? = some p ↔ Path.common? ks.paths = some p.toList := by
  show (Path.common? ks.paths).map String.ofList = some p ↔ _
  rw [Option.map_eq_some_iff]
  constructor
  · rintro ⟨q, found, rfl⟩
    rwa [String.toList_ofList]
  · intro found
    exact ⟨p.toList, found, String.ofList_toList⟩

/-! ## The deepest common ancestor -/

/-- The common parent is not empty and covers every name. -/
theorem atOrAbove_of_commonParent? {ks : KeySet} {p : String} (h : ks.commonParent? = some p) :
    p ≠ "" ∧ ∀ k ∈ ks.keys, Path.AtOrAbove p.toList k.name.toList := by
  obtain ⟨nonempty, covered⟩ := Path.covers_of_common? (commonParent?_eq_some_iff.mp h)
  refine ⟨?_, forall_mem_paths.mp fun n mem => Path.covers_iff_atOrAbove.mp (covered n mem)⟩
  rintro rfl
  exact nonempty rfl

theorem wellFormed_of_commonParent? {ks : KeySet} (wf : ∀ k ∈ ks.keys, Path.WellFormed k.name.toList)
    {p : String} (h : ks.commonParent? = some p) : Path.WellFormed p.toList :=
  .of_common? (commonParent?_eq_some_iff.mp h) (forall_mem_paths.mpr wf)

theorem exists_commonParent?_of_candidate {ks : KeySet} (nonempty : ks.keys ≠ [])
    (wf : ∀ k ∈ ks.keys, Path.WellFormed k.name.toList) {q : Path} (candidate : q.Candidate)
    (covered : ∀ k ∈ ks.keys, Path.AtOrAbove q k.name.toList) :
    ∃ p, ks.commonParent? = some p ∧ Path.AtOrAbove q p.toList := by
  have inhabited : ks.paths ≠ [] := by simpa [paths, names] using nonempty
  have all : ∀ n ∈ ks.paths, q.covers n = true :=
    forall_mem_paths.mpr fun k mem => Path.covers_iff_atOrAbove.mpr (covered k mem)
  obtain ⟨p, found, above⟩ :=
    Path.exists_common?_of_candidate (forall_mem_paths.mpr wf) candidate inhabited all
  refine ⟨String.ofList p, ?_, ?_⟩
  · rwa [commonParent?_eq_some_iff, String.toList_ofList]
  · rwa [String.toList_ofList, ← Path.covers_iff_atOrAbove]

/-- Among well-formed names, there is a common parent just if a candidate covers all of them, and it is
then the deepest of these candidates. -/
theorem commonParent?_deepest {ks : KeySet} (nonempty : ks.keys ≠ [])
    (wf : ∀ k ∈ ks.keys, Path.WellFormed k.name.toList) :
    ((∃ p, ks.commonParent? = some p) ↔
        ∃ q, Path.Candidate q ∧ ∀ k ∈ ks.keys, Path.AtOrAbove q k.name.toList) ∧
      (∀ p, ks.commonParent? = some p →
        Path.Candidate p.toList ∧ (∀ k ∈ ks.keys, Path.AtOrAbove p.toList k.name.toList) ∧
          ∀ q, Path.Candidate q → (∀ k ∈ ks.keys, Path.AtOrAbove q k.name.toList) →
            Path.AtOrAbove q p.toList) ∧
      ((¬∃ q, Path.Candidate q ∧ ∀ k ∈ ks.keys, Path.AtOrAbove q k.name.toList) →
        ks.commonParent? = none) := by
  have sound : ∀ p, ks.commonParent? = some p →
      Path.Candidate p.toList ∧ ∀ k ∈ ks.keys, Path.AtOrAbove p.toList k.name.toList := by
    intro p found
    exact ⟨(wellFormed_of_commonParent? wf found).candidate, (atOrAbove_of_commonParent? found).2⟩
  have deepest : ∀ q, Path.Candidate q → (∀ k ∈ ks.keys, Path.AtOrAbove q k.name.toList) →
      ∃ p, ks.commonParent? = some p ∧ Path.AtOrAbove q p.toList := by
    intro q candidate covered
    exact exists_commonParent?_of_candidate nonempty wf candidate covered
  refine ⟨⟨?_, ?_⟩, ?_, ?_⟩
  · rintro ⟨p, found⟩
    exact ⟨p.toList, sound p found⟩
  · rintro ⟨q, candidate, covered⟩
    obtain ⟨p, found, -⟩ := deepest q candidate covered
    exact ⟨p, found⟩
  · intro p found
    refine ⟨(sound p found).1, (sound p found).2, ?_⟩
    intro q candidate covered
    obtain ⟨r, same, above⟩ := deepest q candidate covered
    obtain rfl := Option.some.inj (found.symm.trans same)
    exact above
  · intro missing
    cases found : ks.commonParent? with
    | none => rfl
    | some p => exact absurd ⟨p.toList, sound p found⟩ missing

/-- Names that share no segment: the root of their namespace lies below the other candidate, which is the
namespace without a separator. -/
theorem deepest_below_namespace :
    let ks : KeySet := ⟨[{ name := "system:/a/b" }, { name := "system:/ab" }], by decide⟩
    (ks.keys ≠ [] ∧ ∀ k ∈ ks.keys, Path.WellFormed k.name.toList) ∧
      ((∃ p, ks.commonParent? = some p) ↔
        ∃ q, Path.Candidate q ∧ ∀ k ∈ ks.keys, Path.AtOrAbove q k.name.toList) ∧
      (∀ p, ks.commonParent? = some p →
        Path.Candidate p.toList ∧ (∀ k ∈ ks.keys, Path.AtOrAbove p.toList k.name.toList) ∧
          ∀ q, Path.Candidate q → (∀ k ∈ ks.keys, Path.AtOrAbove q k.name.toList) →
            Path.AtOrAbove q p.toList) ∧
      ((¬∃ q, Path.Candidate q ∧ ∀ k ∈ ks.keys, Path.AtOrAbove q k.name.toList) →
        ks.commonParent? = none) := by
  intro ks
  have nonempty : ks.keys ≠ [] := by simp [ks]
  have wf : ∀ k ∈ ks.keys, Path.WellFormed k.name.toList := by decide +kernel
  exact ⟨⟨nonempty, wf⟩, commonParent?_deepest nonempty wf⟩

/-! ## The order of the keys -/

theorem paths_perm {ks ls : KeySet} (same : ls.keys.Perm ks.keys) : ls.paths.Perm ks.paths :=
  (same.map Key.name).map String.toList

theorem commonParent?_eq_iff {ks ls : KeySet} :
    ls.commonParent? = ks.commonParent? ↔ Path.common? ls.paths = Path.common? ks.paths :=
  (Option.map_injective fun _ _ => String.ofList_injective).eq_iff

theorem commonParent?_of_same_first {ks ls : KeySet} (same : ls.keys.Perm ks.keys)
    (first : ls.keys.head? = ks.keys.head?) : ls.commonParent? = ks.commonParent? := by
  apply commonParent?_eq_iff.mpr
  have members := fun n => (paths_perm same).mem_iff (a := n)
  cases start : ks.keys.head? with
  | none =>
    rw [paths, names, paths, names, List.head?_eq_none_iff.mp start,
      List.head?_eq_none_iff.mp (first.trans start)]
  | some k =>
    obtain ⟨others, hks⟩ := List.head?_eq_some_iff.mp start
    obtain ⟨others', hls⟩ := List.head?_eq_some_iff.mp (first.trans start)
    rw [paths, names, paths, names, hks, hls] at members ⊢
    exact Path.common?_cons_of_mem_iff members

/-- The same keys, `k` first. -/
def startingWith (ks : KeySet) (k : Key) (mem : k ∈ ks.keys) : KeySet where
  keys := k :: ks.keys.erase k
  nodup := ((List.perm_cons_erase mem).map Key.name).nodup_iff.mp ks.nodup

theorem startingWith_perm {ks : KeySet} {k : Key} (mem : k ∈ ks.keys) :
    (ks.startingWith k mem).keys.Perm ks.keys :=
  (List.perm_cons_erase mem).symm

theorem confluent_of_reordered {ks : KeySet}
    (unmoved : ∀ ls : KeySet, ls.keys.Perm ks.keys → ls.commonParent? = ks.commonParent?) :
    Path.Confluent ks.paths := by
  intro q nonempty covered passed n mem
  obtain ⟨m, start, passed⟩ := passed
  obtain ⟨k, hk, rfl⟩ := mem_paths.mp start
  obtain ⟨l, hl, rfl⟩ := mem_paths.mp mem
  have agree : (ks.startingWith k hk).commonParent? = (ks.startingWith l hl).commonParent? :=
    (unmoved _ (startingWith_perm hk)).trans (unmoved _ (startingWith_perm hl)).symm
  apply Path.reaches_of_common?_eq (commonParent?_eq_iff.mp agree) passed nonempty
  intro j mem
  exact Path.covers_iff_atOrAbove.mpr (covered j ((paths_perm (startingWith_perm hk)).mem_iff.mp mem))

/-- The common parent is the same for every order of the keys just if the ways up from their names meet.
They do where all names are well-formed. And in any case only the first key has a place. -/
theorem commonParent?_perm (ks : KeySet) :
    ((∀ ls : KeySet, ls.keys.Perm ks.keys → ls.commonParent? = ks.commonParent?) ↔
        Path.Confluent ks.paths) ∧
      ((∀ k ∈ ks.keys, Path.WellFormed k.name.toList) →
        ∀ ls : KeySet, ls.keys.Perm ks.keys → ls.commonParent? = ks.commonParent?) ∧
      ∀ ls : KeySet, ls.keys.Perm ks.keys → ls.keys.head? = ks.keys.head? →
        ls.commonParent? = ks.commonParent? := by
  have enough : Path.Confluent ks.paths →
      ∀ ls : KeySet, ls.keys.Perm ks.keys → ls.commonParent? = ks.commonParent? := by
    intro confluent ls same
    apply commonParent?_eq_iff.mpr
    exact (Path.common?_eq_of_perm (paths_perm same).symm confluent).symm
  refine ⟨⟨confluent_of_reordered, enough⟩, ?_, fun ls => commonParent?_of_same_first⟩
  intro wf
  exact enough (Path.confluent_of_wellFormed (forall_mem_paths.mpr wf))

/-- A name is the common parent of itself and the same name with a separator behind it, but only when it
comes first: from the other nothing is passed that covers both. -/
theorem commonParent?_lost_in_other_order :
    let ks : KeySet := ⟨[{ name := "a" }, { name := "a/" }], by decide⟩
    let ls : KeySet := ⟨[{ name := "a/" }, { name := "a" }], by decide⟩
    ¬(ls.keys.Perm ks.keys → ls.commonParent? = ks.commonParent?) ∧
      ks.commonParent? = some "a" ∧ ls.commonParent? = none := by
  decide +kernel

/-! ## Adding a key -/

theorem paths_append_of_new {ks : KeySet} {k : Key} (new : k.name ∉ ks.names) :
    (ks.append k).paths = ks.paths ++ [k.name.toList] := by
  rw [paths, names_append, if_neg new, List.map_append]
  rfl

/-- A key of a new name: from the common parent of the others it goes on up. -/
theorem commonParent?_append_of_new {ks : KeySet} (nonempty : ks.keys ≠ []) {k : Key}
    (new : k.name ∉ ks.names) :
    (ks.append k).commonParent? =
      ks.commonParent?.bind fun p => (Path.climb p.toList k.name.toList).map String.ofList := by
  have inhabited : ks.paths ≠ [] := by simpa [paths, names] using nonempty
  obtain ⟨p, ns, start⟩ := List.exists_cons_of_ne_nil inhabited
  have above : (ks.append k).commonParent? =
      (Path.common? (ks.append k).paths).map String.ofList := rfl
  have before : ks.commonParent? = (Path.common? ks.paths).map String.ofList := rfl
  rw [above, before, paths_append_of_new new, start, List.cons_append, Path.common?_concat]
  cases Path.common? (p :: ns) with
  | none => rfl
  | some q => simp [String.toList_ofList]

theorem utf8ByteSize_lt_of_atOrAbove {q p : String} (above : Path.AtOrAbove q.toList p.toList)
    (shorter : q.toList.length < p.toList.length) : q.utf8ByteSize < p.utf8ByteSize := by
  have front := Path.prefix_of_covers (Path.covers_iff_atOrAbove.mpr above)
  have apart : p.toList ≠ q.toList := by
    intro same
    rw [same] at shorter
    exact Nat.lt_irrefl _ shorter
  have fewer := Bytes.length_ofChars_lt_of_prefix front apart
  rwa [← Bytes.ofString, ← Bytes.ofString, Bytes.length_ofString, Bytes.length_ofString] at fewer

/-- A common parent only moves up as keys are added. A key of a known name leaves it as it is. A key of
a new name leaves it where it is at or above that name; otherwise there is none any more, or one above
the former. Where there was none, there is none from then on. -/
theorem commonParent?_append {ks : KeySet} (nonempty : ks.keys ≠ []) (k : Key) :
    (k.name ∈ ks.names → (ks.append k).commonParent? = ks.commonParent?) ∧
      (k.name ∉ ks.names →
        (ks.commonParent? = none → (ks.append k).commonParent? = none) ∧
          ∀ p, ks.commonParent? = some p →
            ((ks.append k).commonParent? = some p ↔ Path.AtOrAbove p.toList k.name.toList) ∧
              (¬Path.AtOrAbove p.toList k.name.toList →
                (ks.append k).commonParent? = none ∨
                  ∃ q, (ks.append k).commonParent? = some q ∧ q.utf8ByteSize < p.utf8ByteSize ∧
                    Path.AtOrAbove q.toList p.toList)) := by
  constructor
  · intro known
    rw [commonParent?, commonParent?, names_append, if_pos known]
  intro new
  rw [commonParent?_append_of_new nonempty new]
  constructor
  · intro missing
    rw [missing]
    rfl
  intro p found
  rw [found, Option.bind_some, ← Path.covers_iff_atOrAbove]
  refine ⟨⟨?_, ?_⟩, ?_⟩
  · intro stays
    obtain ⟨q, climbed, rfl⟩ := Option.map_eq_some_iff.mp stays
    rw [String.toList_ofList] at climbed ⊢
    exact (Path.covers_of_climb climbed).2
  · intro covered
    rw [Path.climb_of_covers covered, Option.map_some, String.ofList_toList]
  · intro apart
    cases climbed : Path.climb p.toList k.name.toList with
    | none => exact .inl rfl
    | some q =>
      right
      have above : Path.AtOrAbove (String.ofList q).toList p.toList := by
        rw [String.toList_ofList]
        exact Path.covers_iff_atOrAbove.mp (Path.covers_of_climb climbed).1
      have shorter : (String.ofList q).toList.length < p.toList.length := by
        rw [String.toList_ofList]
        exact Path.length_lt_of_climb climbed apart
      exact ⟨String.ofList q, rfl, utf8ByteSize_lt_of_atOrAbove above shorter, above⟩

/-- Two separators in a row, and a third name outside: only the root of the namespace covers that too. -/
theorem commonParent?_moved_by_key_outside :
    let ks : KeySet := ⟨[{ name := "user://sw//a" }, { name := "user://sw//b" }], by decide⟩
    let k : Key := { name := "user:/swap" }
    (ks.keys ≠ [] ∧ k.name ∉ ks.names ∧ ks.commonParent? = some "user://sw/" ∧
        ¬Path.AtOrAbove "user://sw/".toList k.name.toList) ∧
      ((ks.append k).commonParent? = none ∨
        ∃ q, (ks.append k).commonParent? = some q ∧ q.utf8ByteSize < "user://sw/".utf8ByteSize ∧
          Path.AtOrAbove q.toList "user://sw/".toList) := by
  intro ks k
  have nonempty : ks.keys ≠ [] := by decide
  have new : k.name ∉ ks.names := by decide
  have found : ks.commonParent? = some "user://sw/" := by decide +kernel
  have apart : ¬Path.AtOrAbove "user://sw/".toList k.name.toList := by
    rw [← Path.covers_iff_atOrAbove]
    decide +kernel
  exact ⟨⟨nonempty, new, found, apart⟩, (((commonParent?_append nonempty k).2 new).2 _ found).2 apart⟩

end KeySet

end KeyExport
