import KeyExport.Key
import KeyExport.Path

/-!
# Key sets

Keys in the order in which their names first came, no two of the same name. A key that comes again takes
the place of the one before.
-/

namespace KeyExport

structure KeySet where
  keys : List Key := []
  nodup : (keys.map Key.name).Nodup := by simp
deriving DecidableEq

namespace KeySet

def empty : KeySet := {}

theorem map_name_replace (keys : List Key) (k : Key) :
    (keys.map fun old => if old.name = k.name then k else old).map Key.name = keys.map Key.name := by
  rw [List.map_map]
  refine List.map_congr_left fun old _ => ?_
  by_cases h : old.name = k.name <;> simp [h]

def append (ks : KeySet) (k : Key) : KeySet :=
  if h : k.name ∈ ks.keys.map Key.name then
    { keys := ks.keys.map fun old => if old.name = k.name then k else old
      nodup := by rw [map_name_replace]; exact ks.nodup }
  else
    { keys := ks.keys ++ [k]
      nodup := by
        rw [List.map_append, List.nodup_append]
        refine ⟨ks.nodup, by simp, fun n hn m hm e => h ?_⟩
        have : m = k.name := by simpa using hm
        exact this ▸ e ▸ hn }

def appendAll (ks : KeySet) (keys : List Key) : KeySet := keys.foldl append ks

def ofList (keys : List Key) : KeySet := empty.appendAll keys

def names (ks : KeySet) : List String := ks.keys.map Key.name

def size (ks : KeySet) : Nat := ks.keys.length

def isEmpty (ks : KeySet) : Bool := ks.keys.isEmpty

def lookup (ks : KeySet) (name : String) : Option Key := ks.keys.find? (·.name = name)

def get? (ks : KeySet) (i : Nat) : Option Key := ks.keys[i]?

def commonParent? (ks : KeySet) : Option String :=
  (Path.common? (ks.names.map String.toList)).map String.ofList

theorem names_append (ks : KeySet) (k : Key) :
    (ks.append k).names = if k.name ∈ ks.names then ks.names else ks.names ++ [k.name] := by
  unfold append names
  split
  · exact map_name_replace ks.keys k
  · simp

theorem nodup_names (ks : KeySet) : ks.names.Nodup := ks.nodup

end KeySet

end KeyExport
