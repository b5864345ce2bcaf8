import KeyExport.Decimal.Shortest
import KeyExport.Json.Skip
import KeyExport.Json.Value
import KeyExport.Options.Basic
import KeyExport.Text.Numeral
import KeyExport.Text.Quoted

/-!
# Loading options

Options are loaded from JSON text: an object that names switches, where a switch that is not named is off
and other members are passed over, or an array with the switches in their order, the last of them left out
at will. The text is read from left to right and the first thing wrong with it is reported.
-/

namespace KeyExport.Options

open Json

/-- A value of another type than expected. -/
inductive Found where
  | null
  | bool (b : Bool)
  | number (n : Number)
  | text (s : String)
  | sequence
  | map

inductive Expected where
  | boolean
  | options

inductive LoadError where
  /-- No JSON text, or one that goes on where it should end. -/
  | malformed
  | duplicate (s : Switch)
  | wrongType (found : Found) (expected : Expected)

def Found.describe : Found → String
  | null => "null"
  | bool b => "boolean `" ++ (if b then "true" else "false") ++ "`"
  | number (.integer n) => "integer `" ++ Text.signed n ++ "`"
  | number (.float f) => "floating point `" ++ Decimal.text f ++ "`"
  | text s => "string " ++ Text.quoted s
  | sequence => "sequence"
  | map => "map"

def Expected.describe : Expected → String
  | boolean => "a boolean"
  | options => "struct StreamOptions"

/-- What is wrong with a text that is well formed. -/
def LoadError.message? : LoadError → Option String
  | malformed => none
  | duplicate s => some ("duplicate field `" ++ s.memberName ++ "`")
  | wrongType found expected =>
    some ("invalid type: " ++ found.describe ++ ", expected " ++ expected.describe)

/-- The value that a token begins, where it begins one and the value has a meaning. -/
def found? : Token → Option Found
  | .null => some .null
  | .bool b => some (.bool b)
  | .number n => n.number?.map .number
  | .string pieces => (Json.text? pieces).map .text
  | .openArray => some .sequence
  | .openObject => some .map
  | _ => none

def unexpected (t : Token) (expected : Expected) : LoadError :=
  match found? t with
  | some found => .wrongType found expected
  | none => .malformed

/-- Where the reader stands. -/
inductive Stage where
  | start
  /-- A name, or the end of the object that has just begun. -/
  | firstName
  | name
  | colon (s : Switch)
  | value (s : Switch)
  | otherColon
  | otherValue (skip : Skip)
  | afterMember
  /-- An element, or the end of the array that has just begun. -/
  | firstElement
  | element (s : Switch) (rest : List Switch)
  | afterElement (rest : List Switch)
  | done

structure Reading where
  options : Options := {}
  /-- The switches that have been named. -/
  named : List Switch := []
  stage : Stage := .start

namespace Reading

def goto (r : Reading) (stage : Stage) : Except LoadError Reading := .ok { r with stage }

def readName (r : Reading) (pieces : List Piece) : Except LoadError Reading :=
  match Json.text? pieces with
  | none => .error .malformed
  | some name =>
    match Switch.ofMemberName? name with
    | none => r.goto .otherColon
    | some s => if s ∈ r.named then .error (.duplicate s) else r.goto (.colon s)

def readSwitch (r : Reading) (s : Switch) (t : Token) (next : Stage) : Except LoadError Reading :=
  match t with
  | .bool b => .ok ⟨r.options.set s b, s :: r.named, next⟩
  | t => .error (unexpected t .boolean)

def step (r : Reading) (t : Token) : Except LoadError Reading :=
  match r.stage, t with
  | .start, .openObject => r.goto .firstName
  | .start, .openArray => r.goto .firstElement
  | .start, t => .error (unexpected t .options)
  | .firstName, .closeObject => r.goto .done
  | .firstName, .string pieces => r.readName pieces
  | .name, .string pieces => r.readName pieces
  | .colon s, .colon => r.goto (.value s)
  | .value s, t => r.readSwitch s t .afterMember
  | .otherColon, .colon => r.goto (.otherValue {})
  | .otherValue skip, t =>
    match skip.step? t with
    | none => .error .malformed
    | some skip => r.goto (if skip.isDone then .afterMember else .otherValue skip)
  | .afterMember, .comma => r.goto .name
  | .afterMember, .closeObject => r.goto .done
  | .firstElement, .closeArray => r.goto .done
  | .firstElement, t => r.readSwitch .numbers t (.afterElement Switch.all.tail)
  | .element s rest, t => r.readSwitch s t (.afterElement rest)
  | .afterElement (s :: rest), .comma => r.goto (.element s rest)
  | .afterElement _, .closeArray => r.goto .done
  | _, _ => .error .malformed

end Reading

def load (text : String) : Except LoadError Options :=
  match Json.scan Reading.step .malformed {} text.toList with
  | .error e => .error e
  | .ok r => if r.stage matches .done then .ok r.options else .error .malformed

end KeyExport.Options
