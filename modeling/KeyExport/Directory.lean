import KeyExport.Sink.Memory
import KeyExport.Xml.Writer

/-!
# Writing into a directory

A directory, what there is in it, and the directories above it. A path is followed name by name from the
directory: each name but the last has to be that of a directory, and the last that of a file, which need
not exist. A path that leads to no file says why. Exporting to a file empties it first; what is written
before a key is refused stays in it.
-/

namespace KeyExport

/-- The names that lead from the root to a file or a directory. -/
abbrev Location := List String

inductive Entry where
  | directory
  | file (contents : Bytes)
deriving DecidableEq

structure Directory where
  /-- Where the directory is. -/
  base : Location := []
  /-- Files and directories by their location; of several entries for one location the first counts. -/
  entries : List (Location × Entry) := []

namespace Directory

def maxNameLength : Nat := 255

/-- The directory's own path, in front of every path that is followed from it. -/
def ownPath (d : Directory) : String := "/" ++ String.join (d.base.map (· ++ "/"))

def nulInPath : Fault := ⟨.invalidInput, "file name contained an unexpected NUL byte"⟩

def nameTooLong : Fault := ⟨.invalidFilename, "File name too long (os error 36)"⟩

def isADirectory : Fault := ⟨.isADirectory, "Is a directory (os error 21)"⟩

def notADirectory : Fault := ⟨.notADirectory, "Not a directory (os error 20)"⟩

def notFound : Fault := ⟨.notFound, "No such file or directory (os error 2)"⟩

/-- What there is at a location. The directory and those above it always exist. -/
def get? (d : Directory) (l : Location) : Option Entry :=
  if l <+: d.base then some .directory else d.entries.lookup l

def put (d : Directory) (l : Location) (contents : Bytes) : Directory :=
  { d with entries := (l, .file contents) :: d.entries }

/-- The names between the separators. -/
def names (path : String) : List (List Char) := path.toList.splitOn '/'

/-- Where a name leads from `place`, if it stands for a directory wherever it occurs. -/
def leadsTo? (place : Location) (name : List Char) : Option Location :=
  if name = [] ∨ name = ['.'] then some place
  else if name = ['.', '.'] then some place.dropLast
  else none

/-- What is wrong with a name, or with separators that end the path behind it, whatever there is. -/
def nameFault? (name : List Char) (rest : List (List Char)) : Option Fault :=
  if rest ≠ [] ∧ rest.all (· = []) then some isADirectory
  else if maxNameLength < (Bytes.ofChars name).length then some nameTooLong
  else none

/-- Follow the names from the directory at `place`; only the last may be that of a file. -/
def follow (d : Directory) (place : Location) : List (List Char) → Except Fault Location
  | [] => .error isADirectory
  | name :: rest =>
    match leadsTo? place name with
    | some place => d.follow place rest
    | none =>
      match nameFault? name rest with
      | some f => .error f
      | none =>
        let l := place ++ [String.ofList name]
        if d.get? l = some .directory then d.follow l rest
        else if rest = [] then .ok l
        else if (d.get? l).isSome then .error notADirectory
        else .error notFound

/-- The file that a path names, whether it exists or not. -/
def resolve (d : Directory) (path : String) : Except Fault Location :=
  if path.toList.contains '\x00' then .error nulInPath
  else if maxPathLength ≤ (d.ownPath ++ path).utf8ByteSize then .error nameTooLong
  else d.follow d.base (names path)

def read? (d : Directory) (path : String) : Option Bytes :=
  match d.resolve path with
  | .ok l =>
    match d.get? l with
    | some (.file contents) => some contents
    | _ => none
  | .error _ => none

def writeKeySet (d : Directory) (path : String) (ks : KeySet) (o : Options) :
    Except ExportError Nat × Directory :=
  match d.resolve path with
  | .error f => (.error (.sink f), d)
  | .ok l =>
    let (result, w) := (Xml.Writer.ofSink ({} : Memory) o).writeKeySet ks
    (result, d.put l w.release.contents)

end Directory

end KeyExport
