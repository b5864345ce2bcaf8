import KeyExport.Options.Switch

/-!
# Options

The switches as they are given to one call. Options and flags hold the same switches and are turned into
each other; bits that belong to no switch are lost.
-/

namespace KeyExport

structure Options where
  numbers : Bool := false
  condensed : Bool := false
  fullName : Bool := false
  hierarchical : Bool := false
  header : Bool := false
  suppressXmlHeaders : Bool := false
  showIndices : Bool := false
  showFlags : Bool := false
  showMeta : Bool := false
  keyValue : Bool := false
  keyMeta : Bool := false
deriving DecidableEq, Repr

namespace Options

def get (o : Options) : Switch → Bool
  | .numbers => o.numbers
  | .condensed => o.condensed
  | .fullName => o.fullName
  | .hierarchical => o.hierarchical
  | .header => o.header
  | .suppressXmlHeaders => o.suppressXmlHeaders
  | .showIndices => o.showIndices
  | .showFlags => o.showFlags
  | .showMeta => o.showMeta
  | .keyValue => o.keyValue
  | .keyMeta => o.keyMeta

def set (o : Options) (s : Switch) (on : Bool) : Options :=
  match s with
  | .numbers => { o with numbers := on }
  | .condensed => { o with condensed := on }
  | .fullName => { o with fullName := on }
  | .hierarchical => { o with hierarchical := on }
  | .header => { o with header := on }
  | .suppressXmlHeaders => { o with suppressXmlHeaders := on }
  | .showIndices => { o with showIndices := on }
  | .showFlags => { o with showFlags := on }
  | .showMeta => { o with showMeta := on }
  | .keyValue => { o with keyValue := on }
  | .keyMeta => { o with keyMeta := on }

@[simp] theorem get_set (o : Options) (s t : Switch) (on : Bool) :
    (o.set s on).get t = if t = s then on else o.get t := by
  cases s <;> cases t <;> rfl

@[ext] theorem ext_get {o p : Options} (h : ∀ s, o.get s = p.get s) : o = p := by
  obtain ⟨⟩ := o
  obtain ⟨⟩ := p
  simp only [mk.injEq]
  exact ⟨h .numbers, h .condensed, h .fullName, h .hierarchical, h .header, h .suppressXmlHeaders,
    h .showIndices, h .showFlags, h .showMeta, h .keyValue, h .keyMeta⟩

/-- For an export to be read by people. -/
def xmlExport : Options := { header := true, hierarchical := true }

/-- For a listing of all there is to know. -/
def debugDump : Options :=
  { header := true, showIndices := true, showFlags := true, keyValue := true, keyMeta := true }

def emitsXmlHeader (o : Options) : Bool := o.header && !o.suppressXmlHeaders

def ofFlags (f : Flags) : Options where
  numbers := f.has Switch.numbers.mask
  condensed := f.has Switch.condensed.mask
  fullName := f.has Switch.fullName.mask
  hierarchical := f.has Switch.hierarchical.mask
  header := f.has Switch.header.mask
  suppressXmlHeaders := f.has Switch.suppressXmlHeaders.mask
  showIndices := f.has Switch.showIndices.mask
  showFlags := f.has Switch.showFlags.mask
  showMeta := f.has Switch.showMeta.mask
  keyValue := f.has Switch.keyValue.mask
  keyMeta := f.has Switch.keyMeta.mask

/-- Whether a switch is on, and the bit to be set if it is. -/
def flagPairs (o : Options) : List (Bool × UInt32) :=
  [(o.numbers, Switch.numbers.mask), (o.condensed, Switch.condensed.mask),
    (o.fullName, Switch.fullName.mask), (o.hierarchical, Switch.hierarchical.mask),
    (o.header, Switch.header.mask), (o.suppressXmlHeaders, Switch.suppressXmlHeaders.mask),
    (o.showIndices, Switch.showIndices.mask), (o.showFlags, Switch.showFlags.mask),
    (o.showMeta, Switch.showMeta.mask), (o.keyValue, Switch.keyValue.mask),
    (o.keyMeta, Switch.keyMeta.mask)]

def toFlags (o : Options) : Flags :=
  o.flagPairs.foldl (fun f pair => if pair.1 then f.set pair.2 else f) {}

theorem get_ofFlags (f : Flags) (s : Switch) : (ofFlags f).get s = f.has s.mask := by
  cases s <;> rfl

/-- Each switch is paired with its own bit, and none is left out. -/
theorem flagPairs_eq_map (o : Options) : o.flagPairs = Switch.all.map fun s => (o.get s, s.mask) := rfl

def memberText (o : Options) (s : Switch) : String :=
  "\"" ++ s.memberName ++ "\":" ++ (if o.get s then "true" else "false")

/-- All switches as a configuration text without whitespace. -/
def json (o : Options) : String :=
  "\x7b" ++ ",".intercalate (Switch.all.map o.memberText) ++ "\x7d"

end Options

end KeyExport
