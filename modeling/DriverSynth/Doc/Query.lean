import DriverSynth.Doc.Basic

/-! # Reading values out of documents

The interchange formats read documents by a few fixed rules. A member is looked up only in an
object. Walking the items of a document gives an array's items, an object's values in key order,
nothing for `null` and the document itself otherwise; walking its entries does the same with keys,
an array's items keyed by index. A count of bytes reads any number and wraps it to 64 bits,
cutting a fraction toward zero; a signed count wraps to two's complement. Neither accepts a truth
value, a string or `null`.
-/

namespace DriverSynth

namespace Doc

/-- Why a document does not have the shape that a reader asked for. -/
inductive ShapeError where
  | notAnObject
  | missingMember (key : String)
  | wrongKind (expected : String)
deriving Repr, DecidableEq

/-- The member of a key, if the document is an object that has one. -/
def get? : Doc → String → Option Doc
  | .obj fields, key => (fields.find? (·.1 == key)).map (·.2)
  | _, _ => none

/-- Whether the document is an object with a member of the key. -/
def has (d : Doc) (key : String) : Bool := (d.get? key).isSome

/-- The member of a key; a shape error when the document is no object or lacks it. -/
def member (d : Doc) (key : String) : Except ShapeError Doc :=
  match d with
  | .obj _ => match d.get? key with
    | some v => .ok v
    | none => .error (.missingMember key)
  | _ => .error .notAnObject

/-- The documents a walk over this one visits. -/
def items : Doc → List Doc
  | .arr items => items
  | .obj fields => fields.map (·.2)
  | .null => []
  | d => [d]

/-- The keyed documents a walk over the entries of this one visits. -/
def entries : Doc → List (String × Doc)
  | .arr items => (List.range items.length).zip items |>.map fun (i, d) => (toString i, d)
  | .obj fields => fields
  | .null => []
  | d => [("", d)]

/-- A string. -/
def toStr : Doc → Except ShapeError String
  | .str s => .ok s
  | _ => .error (.wrongKind "string")

/-- A truth value. -/
def toBool : Doc → Except ShapeError Bool
  | .bool b => .ok b
  | _ => .error (.wrongKind "boolean")

/-- An array of strings. -/
def toStrs : Doc → Except ShapeError (List String)
  | .arr items => items.mapM toStr
  | _ => .error (.wrongKind "array")

/-- A number as an unsigned 64-bit count. -/
def toWord : Doc → Except ShapeError UInt64
  | .nat n => .ok (UInt64.ofNat n)
  | .int i => .ok (UInt64.ofInt i)
  | .float x => .ok (if 0 ≤ x then x.toUInt64 else UInt64.ofInt x.toInt64.toInt)
  | _ => .error (.wrongKind "number")

/-- A number as a signed 64-bit count. -/
def toInt64 : Doc → Except ShapeError Int64
  | .nat n => .ok (Int64.ofNat n)
  | .int i => .ok (Int64.ofInt i)
  | .float x => .ok x.toInt64
  | _ => .error (.wrongKind "number")

/-- The member of a key read by `read`, or `fallback` when the object lacks it; a shape error when
the document is no object. A member that is present but `null` goes to `read`. -/
def memberOr {α : Type} (d : Doc) (key : String) (fallback : α)
    (read : Doc → Except ShapeError α) : Except ShapeError α :=
  match d with
  | .obj _ => match d.get? key with
    | some v => read v
    | none => .ok fallback
  | _ => .error .notAnObject

/-- Whether the document is a number. -/
def isNumber : Doc → Bool
  | .nat _ | .int _ | .float _ => true
  | _ => false

/-- Whether the document is an integer written without a sign. -/
def isNat : Doc → Bool
  | .nat _ => true
  | _ => false

end Doc

end DriverSynth
