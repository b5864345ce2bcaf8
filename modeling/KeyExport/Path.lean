import KeyExport.Text.Front

/-!
# Paths

A path is read as a list of characters with `/` between segments. `covers p n` says that `n` is `p`
itself or lies below it. `parent?` goes one level up: trailing separators do not count, and a root, such
as `/` or `system:/`, keeps its separator. Going up until everything is covered gives the common parent
of several paths.
-/

namespace KeyExport

abbrev Path := List Char

namespace Path

def separator : Char := '/'

def covers (p n : Path) : Bool :=
  match Text.dropFront? p n with
  | some [] => true
  | some (c :: _) => c == separator || p.getLast? == some separator
  | none => false

/-- The path up to and with its last separator, read backwards; trailing separators do not count. -/
def upToSeparator (p : Path) : List Char :=
  (p.reverse.dropWhile (· == separator)).dropWhile (· != separator)

def parent? (p : Path) : Option Path :=
  match p.upToSeparator with
  | [] => none
  | s :: up => some (if up = [] ∨ up.head? = some ':' then s :: up else up).reverse

theorem upToSeparator_length_lt {p : Path} (h : p.upToSeparator ≠ []) :
    p.upToSeparator.length < p.length := by
  unfold upToSeparator at h ⊢
  have whole : (p.reverse.dropWhile (· == separator)).length ≤ p.length := by
    simpa using (List.dropWhile_sublist (p := (· == separator)) (l := p.reverse)).length_le
  cases e : p.reverse.dropWhile (· == separator) with
  | nil => simp [e] at h
  | cons c r =>
    have first : (c == separator) = false := by
      simpa [e] using List.head_dropWhile_not (· == separator) (l := p.reverse) (by simp [e])
    have other : (c != separator) = true := by simp [bne, first]
    rw [e] at whole
    simp only [List.dropWhile_cons, other, ↓reduceIte]
    exact Nat.lt_of_lt_of_le
      (Nat.lt_succ_of_le (List.dropWhile_sublist _).length_le) whole

theorem parent?_length_lt {p q : Path} (h : p.parent? = some q) : q.length < p.length := by
  unfold parent? at h
  split at h
  · simp at h
  · next s up e =>
    have shorter := upToSeparator_length_lt (p := p) (by simp [e])
    rw [e] at shorter
    have kept : q.length ≤ (s :: up).length := by
      rw [← Option.some.inj h, List.length_reverse]
      split <;> simp
    exact Nat.lt_of_le_of_lt kept shorter

/-- The nearest of `p` and its ancestors that covers `n`. -/
def climb (p n : Path) : Option Path :=
  if p.covers n then some p
  else
    match _h : p.parent? with
    | none => none
    | some q => climb q n
termination_by p.length
decreasing_by exact parent?_length_lt _h

/-- An empty path is no parent. -/
def common? : List Path → Option Path
  | [] => none
  | p :: ns => (ns.foldlM climb p).filter (· ≠ [])

end Path

end KeyExport
