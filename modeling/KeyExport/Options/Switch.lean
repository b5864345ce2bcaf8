/-!
# Switches and flags

Eleven switches steer the output. Each has a bit, so a 32-bit word can hold any set of them, a name for
the bit, and a name as a member of a configuration text.
-/

namespace KeyExport

inductive Switch where
  /-- Numeric user ids qualify names in place of owner names. -/
  | numbers
  /-- Whitespace that only helps the eye is left out. -/
  | condensed
  /-- Qualified names in place of stored names. -/
  | fullName
  /-- Names are written relative to the common parent. -/
  | hierarchical
  /-- A document starts with declaration and schema, a listing with a line of its size. -/
  | header
  /-- No declaration and schema even with a header. -/
  | suppressXmlHeaders
  /-- A listing numbers its lines. -/
  | showIndices
  /-- Lines show the kind of value and whether a key has to be stored. -/
  | showFlags
  /-- Lines have one more separator. -/
  | showMeta
  /-- Lines show values. -/
  | keyValue
  /-- Lines show comments. -/
  | keyMeta
deriving DecidableEq, Repr

namespace Switch

def all : List Switch :=
  [numbers, condensed, fullName, hierarchical, header, suppressXmlHeaders, showIndices, showFlags,
    showMeta, keyValue, keyMeta]

theorem mem_all (s : Switch) : s ∈ all := by cases s <;> decide

def mask : Switch → UInt32
  | numbers => 1
  | condensed => 2
  | fullName => 4
  | hierarchical => 8
  | header => 16
  | suppressXmlHeaders => 32
  | showIndices => 64
  | showFlags => 128
  | showMeta => 256
  | keyValue => 512
  | keyMeta => 1024

def flagName : Switch → String
  | numbers => "NUMBERS"
  | condensed => "CONDENSED"
  | fullName => "FULLNAME"
  | hierarchical => "HIER"
  | header => "HEADER"
  | suppressXmlHeaders => "XMLHEADERS"
  | showIndices => "SHOWINDICES"
  | showFlags => "SHOWFLAGS"
  | showMeta => "SHOWMETA"
  | keyValue => "KEY_VALUE"
  | keyMeta => "KEY_META"

def memberName : Switch → String
  | numbers => "numbers"
  | condensed => "condensed"
  | fullName => "full_name"
  | hierarchical => "hierarchical"
  | header => "header"
  | suppressXmlHeaders => "suppress_xml_headers"
  | showIndices => "show_indices"
  | showFlags => "show_flags"
  | showMeta => "show_meta"
  | keyValue => "key_value"
  | keyMeta => "key_meta"

def ofMemberName? (name : String) : Option Switch := all.find? (·.memberName = name)

theorem ofMemberName?_memberName (s : Switch) : ofMemberName? s.memberName = some s := by
  cases s <;> decide

end Switch

/-- A word of bits; those that belong to no switch are kept but mean nothing. -/
structure Flags where
  value : UInt32 := 0
deriving DecidableEq, Repr

namespace Flags

def set (f : Flags) (mask : UInt32) : Flags := ⟨f.value ||| mask⟩

def clear (f : Flags) (mask : UInt32) : Flags := ⟨f.value &&& ~~~mask⟩

/-- Whether any of the bits in `mask` is set. -/
def has (f : Flags) (mask : UInt32) : Bool := f.value &&& mask != 0

def display (f : Flags) : String :=
  match (Switch.all.filter fun s => f.has s.mask).map Switch.flagName with
  | [] => "NONE"
  | names => "|".intercalate names

end Flags

end KeyExport
