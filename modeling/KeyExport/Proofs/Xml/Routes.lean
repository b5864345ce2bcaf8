import KeyExport.Directory
import KeyExport.Proofs.Sink.Accepting
import KeyExport.Proofs.Sink.Limited
import KeyExport.Proofs.Xml.Textual

/-!
# Ways to produce a document

A document may be written into memory, through a writer to a sink, to a file, or given back as text. On
a sink that takes everything, and where the file can be created, all ways end alike and deliver the same
bytes: those before the key at fault when a name is too long, and all of them otherwise. What the file
held before does not matter.
-/

namespace KeyExport

namespace Directory

/-- Two directories in one place, with the same directories in and around them. -/
structure SameDirectories (d e : Directory) : Prop where
  base : e.base = d.base
  get?_iff : ∀ l, e.get? l = some .directory ↔ d.get? l = some .directory

/-- What a path names is no directory, and it names the same wherever the same directories exist. -/
theorem follow_eq_ok {d : Directory} {place : Location} {names : List (List Char)} {l : Location}
    (h : d.follow place names = .ok l) :
    d.get? l ≠ some .directory ∧ ∀ {e}, SameDirectories d e → e.follow place names = .ok l := by
  induction names generalizing place with
  | nil => cases h
  | cons name rest ih =>
    simp only [follow] at h ⊢
    cases leads : leadsTo? place name with
    | some next =>
      simp only [leads] at h ⊢
      exact ih h
    | none =>
      cases fault : nameFault? name rest with
      | some f =>
        simp only [leads, fault] at h
        cases h
      | none =>
        simp only [leads, fault] at h ⊢
        by_cases inside : d.get? (place ++ [String.ofList name]) = some .directory
        · rw [if_pos inside] at h
          obtain ⟨file, stable⟩ := ih h
          refine ⟨file, fun same => ?_⟩
          rw [if_pos ((same.get?_iff _).mpr inside)]
          exact stable same
        rw [if_neg inside] at h
        by_cases last : rest = []
        · rw [if_pos last] at h
          obtain rfl := Except.ok.inj h
          refine ⟨inside, fun same => ?_⟩
          rw [if_neg (mt (same.get?_iff _).mp inside), if_pos last]
        · rw [if_neg last] at h
          split at h <;> cases h

theorem resolve_eq_ok {d : Directory} {path : String} {l : Location} (h : d.resolve path = .ok l) :
    d.get? l ≠ some .directory ∧ ∀ {e}, SameDirectories d e → e.resolve path = .ok l := by
  unfold resolve at h
  split at h
  · cases h
  · next clean =>
    split at h
    · cases h
    · next short =>
      obtain ⟨file, stable⟩ := follow_eq_ok h
      refine ⟨file, fun same => ?_⟩
      rw [resolve, if_neg clean, ownPath, same.base]
      exact (if_neg short).trans (stable same)

theorem get?_put_self {d : Directory} {l : Location} (file : d.get? l ≠ some .directory) (b : Bytes) :
    (d.put l b).get? l = some (.file b) := by
  have outside : ¬l <+: d.base := fun above => file (if_pos above)
  exact (if_neg outside).trans List.lookup_cons_self

theorem get?_put_of_ne {d : Directory} {l m : Location} (other : m ≠ l) (b : Bytes) :
    (d.put l b).get? m = d.get? m := by
  rw [get?, get?, put, List.lookup_cons, beq_false_of_ne other]

theorem sameDirectories_put {d : Directory} {l : Location} (file : d.get? l ≠ some .directory)
    (b : Bytes) : SameDirectories d (d.put l b) := by
  refine ⟨rfl, fun m => ?_⟩
  by_cases here : m = l
  · rw [here, get?_put_self file]
    simp [file]
  · rw [get?_put_of_ne here]

/-- What was put where a path leads is read along the same path. -/
theorem read?_put {d : Directory} {path : String} {l : Location} (h : d.resolve path = .ok l)
    (b : Bytes) : (d.put l b).read? path = some b := by
  obtain ⟨file, stable⟩ := resolve_eq_ok h
  rw [read?, stable (sameDirectories_put file b)]
  dsimp only
  rw [get?_put_self file]

end Directory

namespace Xml

open Bytes (ofString)

namespace Writer

variable {σ : Type} [Sink σ] {holds : σ → Prop}

/-- Over a sink that takes everything a document passes through the writer, and nothing else does. -/
theorem writeKeySet_of_accepting (accepting : Sink.Accepting holds) {w : Writer σ}
    (start : holds w.out.sink) (ks : KeySet) :
    (w.writeKeySet ks).1 = (document ks w.options).outcome ∧
      (w.writeKeySet ks).2.out.received = w.out.received ++ (document ks w.options).bytes ∧
      holds (w.writeKeySet ks).2.out.sink := by
  obtain ⟨ended, received⟩ := accepting.buffered.writeTo start (document ks w.options)
  have kept := (document ks w.options).writeTo_preserves (fun out : Buffered σ => holds out.sink)
    accepting.buffered.keep start
  unfold writeKeySet
  split
  · next e out stop =>
    rw [stop] at ended received kept
    exact ⟨ended, received, kept⟩
  · next n out stop =>
    rw [stop] at ended received kept
    obtain ⟨flushed, still⟩ := accepting.flush kept
    have same := Buffered.received_flush out
    generalize out.flush = result at flushed still same
    obtain ⟨result, out⟩ := result
    obtain rfl : result = .ok () := flushed
    exact ⟨ended, same.trans received, still⟩

end Writer

/-- How a document ends in memory, and its bytes there. -/
def inMemory (ks : KeySet) (o : Options) : Except ExportError Nat × Bytes :=
  (((document ks o).writeTo ({} : Memory)).1, ((document ks o).writeTo ({} : Memory)).2.contents)

theorem inMemory_eq (ks : KeySet) (o : Options) :
    inMemory ks o = ((document ks o).outcome, (document ks o).bytes) := by
  obtain ⟨ended, contents⟩ := Memory.writeTo_eq (document ks o) {}
  exact Prod.ext ended contents

/-- Every way to produce a document ends as it does in memory, with the same bytes delivered. -/
structure RoutesAgree {σ : Type} [Sink σ] (s : σ) (d : Directory) (path : String) (ks : KeySet)
    (o : Options) : Prop where
  through : ∀ f, (inMemory ks o).1 ≠ .error (.sink f)
  count : ∀ n, (inMemory ks o).1 = .ok n → n = (inMemory ks o).2.length
  written : ((Writer.ofSink s o).writeKeySet ks).1 = (inMemory ks o).1
  finished : ((Writer.ofSink s o).writeKeySet ks).2.finish.1 = .ok ()
  received : Sink.received ((Writer.ofSink s o).writeKeySet ks).2.finish.2 =
    Sink.received s ++ (inMemory ks o).2
  filed : (d.writeKeySet path ks o).1 = (inMemory ks o).1
  file : (d.writeKeySet path ks o).2.read? path = some (inMemory ks o).2
  text : ∀ n, (inMemory ks o).1 = .ok n →
    ∃ s, (document ks o).toText = .ok s ∧ ofString s = (inMemory ks o).2
  refused : ∀ e, (inMemory ks o).1 = .error (.nameTooLong e) → (document ks o).toText = .error e

/-- On any sink that takes everything, and wherever a file can be created, all routes agree. -/
theorem all_routes_agree {σ : Type} [Sink σ] {holds : σ → Prop} (accepting : Sink.Accepting holds)
    {s : σ} (start : holds s) {d : Directory} {path : String} {l : Location}
    (creatable : d.resolve path = .ok l) (ks : KeySet) (o : Options) :
    RoutesAgree s d path ks o := by
  obtain ⟨written, sent, kept⟩ :=
    Writer.writeKeySet_of_accepting accepting (w := Writer.ofSink s o) start ks
  obtain ⟨finished, delivered⟩ := accepting.finish kept
  obtain ⟨filed, stored, -⟩ :=
    Writer.writeKeySet_of_accepting Memory.accepting (w := Writer.ofSink {} o) trivial ks
  -- a file is written in memory by a writer that is released, complete or not
  have released := (Memory.accepting.received_release trivial).trans stored
  refine ⟨?_, ?_, ?_, finished, ?_, ?_, ?_, ?_, ?_⟩
  all_goals rw [inMemory_eq]
  · exact (document ks o).outcome_ne_fault
  · exact fun n ok => (Rendering.outcome_eq_ok_iff.mp ok).2
  · exact written
  · refine delivered.trans (sent.trans ?_)
    rw [Writer.ofSink, Buffered.received, List.append_nil]
  · rw [Directory.writeKeySet, creatable]
    exact filed
  · rw [Directory.writeKeySet, creatable]
    refine (Directory.read?_put creatable _).trans (congrArg some ?_)
    exact released
  · exact fun n ok =>
      Rendering.toText_of_textual (textual_document ks o) (Rendering.outcome_eq_ok_iff.mp ok).1
  · intro e refused
    rw [Rendering.toText, Rendering.outcome_eq_tooLong_iff.mp refused]
    rfl

/-- A sink that takes a byte or two at a time and is interrupted in between, and a file in a directory
further down that was longer; the second key is refused. -/
theorem routes_agree_in_small_pieces :
    let s : Bounded :=
      { terms := { piece := fun i => some (i % 2 + 1), interruptions := fun i => i % 3 } }
    let d : Directory :=
      { base := ["home"]
        entries := [(["home", "out"], .directory),
          (["home", "out", "keys.xml"], .file (List.replicate 5000 0x20))] }
    let ks : KeySet := ⟨[
      { name := "user:/a", value := .text "line\nline", owner := some "o" },
      { name := "user:/b", owner := some ("".pushn 'o' 4096) }], by decide⟩
    let o : Options := { fullName := true }
    ((Limited.steady s ∧ s.room = none ∧ s.terms.flushFault = none) ∧
        d.resolve "./out/../out/keys.xml" = .ok ["home", "out", "keys.xml"]) ∧
      RoutesAgree s d "./out/../out/keys.xml" ks o := by
  intro s d ks o
  have steady : Limited.steady s := by
    intro i n piece
    obtain rfl : i % 2 + 1 = n := Option.some.inj piece
    exact Nat.succ_pos _
  have creatable : d.resolve "./out/../out/keys.xml" = .ok ["home", "out", "keys.xml"] := by
    decide +kernel
  exact ⟨⟨⟨steady, rfl, rfl⟩, creatable⟩,
    all_routes_agree Bounded.accepting ⟨steady, rfl, rfl⟩ creatable ks o⟩

end Xml

end KeyExport
