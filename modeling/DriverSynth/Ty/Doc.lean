import DriverSynth.Ty.Basic
import DriverSynth.Doc.Query
import DriverSynth.Fault

/-! # Types as documents

A type is written as an object with a `kind` member (`unknown`, `primitive`, `str`, `string`,
`slice`, `array`, `tuple`, `vec`, `option`, `reference`, `raw_pointer`, `path`, `generic`) and the
members of that kind: `name`, `inner`, `length`, `elements`, `mutable`, `args` and `copy`.

Reading is the other way, with defaults: `mutable` and `copy` may be absent (false), and so may
the `args` of a path (none). Nesting deeper than `maxTypeDepth` levels below the top type is
refused. Where a type has two members to read, `length` is read before `inner`, `mutable` before
`inner`, and a path's `copy` before its `name`; the first failure is the answer.
-/

namespace DriverSynth

namespace Ty

mutual

/-- The document of a type. -/
def toDoc : Ty → Doc
  | .unknown => .record [("kind", .str "unknown")]
  | .prim name => .record [("kind", .str "primitive"), ("name", .str name)]
  | .str => .record [("kind", .str "str")]
  | .string => .record [("kind", .str "string")]
  | .slice elem => .record [("kind", .str "slice"), ("inner", elem.toDoc)]
  | .array elem length =>
    .record [("kind", .str "array"), ("inner", elem.toDoc), ("length", .nat length.toNat)]
  | .tuple elems => .record [("kind", .str "tuple"), ("elements", .arr (toDocs elems))]
  | .vec elem => .record [("kind", .str "vec"), ("inner", elem.toDoc)]
  | .option inner => .record [("kind", .str "option"), ("inner", inner.toDoc)]
  | .ref target mutable =>
    .record [("kind", .str "reference"), ("inner", target.toDoc), ("mutable", .bool mutable)]
  | .ptr target mutable =>
    .record [("kind", .str "raw_pointer"), ("inner", target.toDoc), ("mutable", .bool mutable)]
  | .path name args copy =>
    .record [("kind", .str "path"), ("name", .str name), ("args", .arr (toDocs args)),
      ("copy", .bool copy)]
  | .generic name => .record [("kind", .str "generic"), ("name", .str name)]

/-- The documents of a list of types. -/
def toDocs : List Ty → List Doc
  | [] => []
  | t :: ts => t.toDoc :: toDocs ts

end

/-- A shape error of a document, as a fault. -/
def shaped {α : Type} : Except Doc.ShapeError α → Except Fault α
  | .ok a => .ok a
  | .error _ => .error .unreadable

/-- Reads a type whose nesting may go `levels - 1` levels deeper. -/
def ofDocWithin : Nat → Doc → Except Fault Ty
  | 0, _ => .error .typeTooDeep
  | levels + 1, d => do
    let kind ← shaped (d.member "kind" >>= Doc.toStr)
    match kind with
    | "unknown" => pure .unknown
    | "primitive" => return .prim (← shaped (d.member "name" >>= Doc.toStr))
    | "str" => pure .str
    | "string" => pure .string
    | "slice" => return .slice (← ofDocWithin levels (← shaped (d.member "inner")))
    | "array" =>
      let length ← shaped (d.member "length" >>= Doc.toWord)
      return .array (← ofDocWithin levels (← shaped (d.member "inner"))) length
    | "tuple" =>
      return .tuple (← (← shaped (d.member "elements")).items.mapM (ofDocWithin levels))
    | "vec" => return .vec (← ofDocWithin levels (← shaped (d.member "inner")))
    | "option" => return .option (← ofDocWithin levels (← shaped (d.member "inner")))
    | "reference" =>
      let mutable ← shaped (d.memberOr "mutable" false Doc.toBool)
      return .ref (← ofDocWithin levels (← shaped (d.member "inner"))) mutable
    | "raw_pointer" =>
      let mutable ← shaped (d.memberOr "mutable" false Doc.toBool)
      return .ptr (← ofDocWithin levels (← shaped (d.member "inner"))) mutable
    | "path" =>
      let args ← if d.has "args" then
          (← shaped (d.member "args")).items.mapM (ofDocWithin levels)
        else pure []
      let copy ← shaped (d.memberOr "copy" false Doc.toBool)
      let name ← shaped (d.member "name" >>= Doc.toStr)
      pure (.path name args copy)
    | "generic" => return .generic (← shaped (d.member "name" >>= Doc.toStr))
    | other => .error (.unknownTypeKind other)

/-- Reads a list of types at one level of nesting, stopping at the first failure. -/
def ofDocsWithin (levels : Nat) (ds : List Doc) : Except Fault (List Ty) :=
  ds.mapM (ofDocWithin levels)

/-- Reads a type from its document. -/
def ofDoc (d : Doc) : Except Fault Ty := ofDocWithin (maxTypeDepth + 1) d

end Ty

end DriverSynth
