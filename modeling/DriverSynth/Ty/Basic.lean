/-! # Types of an API

A `Ty` describes the type of a parameter or result of a Rust function as a catalog records it:
primitives, string slices and strings, slices, arrays, tuples, vectors, options, references and
raw pointers, named paths with type arguments, and generic parameters. A path carries whether its
type implements `Copy`, which the catalog states since it cannot be derived.

Two types are the same when they agree in everything but that copy mark (`Ty.same`). The text of
a type (`Ty.render`) is its Rust spelling.
-/

namespace DriverSynth

/-- The type of a parameter or result. -/
inductive Ty where
  | unknown
  | prim (name : String)
  | str
  | string
  | slice (elem : Ty)
  | array (elem : Ty) (length : UInt64)
  | tuple (elems : List Ty)
  | vec (elem : Ty)
  | option (inner : Ty)
  | ref (target : Ty) (mutable : Bool)
  | ptr (target : Ty) (mutable : Bool)
  | path (name : String) (args : List Ty) (copy : Bool)
  | generic (name : String)
deriving Repr, Inhabited

/-- The kinds of type, each with a fixed number. -/
inductive TyKind where
  | unknown
  | primitive
  | str
  | string
  | slice
  | array
  | tuple
  | vec
  | option
  | reference
  | rawPointer
  | path
  | generic
deriving Repr, DecidableEq

namespace TyKind

/-- Every kind. -/
def all : List TyKind :=
  [.unknown, .primitive, .str, .string, .slice, .array, .tuple, .vec, .option, .reference,
    .rawPointer, .path, .generic]

/-- The number of a kind. -/
def number : TyKind → Nat
  | .unknown => 0
  | .primitive => 1
  | .str => 2
  | .string => 3
  | .slice => 4
  | .array => 5
  | .tuple => 6
  | .vec => 7
  | .option => 8
  | .reference => 10
  | .rawPointer => 11
  | .path => 20
  | .generic => 21

/-- The short name of a kind. -/
def name : TyKind → String
  | .unknown => "unknown"
  | .primitive => "primitive"
  | .str => "str"
  | .string => "string"
  | .slice => "slice"
  | .array => "array"
  | .tuple => "tuple"
  | .vec => "vec"
  | .option => "option"
  | .reference => "ref"
  | .rawPointer => "ptr"
  | .path => "path"
  | .generic => "generic"

/-- The name of a kind number; `"unknown"` for a number of no kind. -/
def nameOfNumber (n : Nat) : String :=
  match all.find? (·.number == n) with
  | some k => k.name
  | none => "unknown"

end TyKind

namespace Ty

/-- The kind of a type. -/
def kind : Ty → TyKind
  | .unknown => .unknown
  | .prim _ => .primitive
  | .str => .str
  | .string => .string
  | .slice _ => .slice
  | .array _ _ => .array
  | .tuple _ => .tuple
  | .vec _ => .vec
  | .option _ => .option
  | .ref _ _ => .reference
  | .ptr _ _ => .rawPointer
  | .path _ _ _ => .path
  | .generic _ => .generic

/-- Bytes of a primitive's value; zero for a name that is no sized primitive. -/
def primByteSize (name : String) : Nat :=
  match name with
  | "i8" | "u8" | "bool" => 1
  | "i16" | "u16" => 2
  | "i32" | "u32" | "f32" | "char" => 4
  | "i64" | "u64" | "f64" | "isize" | "usize" => 8
  | "i128" | "u128" => 16
  | _ => 0

mutual

/-- Whether values of the type are copied rather than moved: primitives, raw pointers, shared
references, paths marked so, and arrays, options and tuples of such. -/
def isCopy : Ty → Bool
  | .prim _ => true
  | .ptr _ _ => true
  | .ref _ mutable => !mutable
  | .path _ _ copy => copy
  | .array elem _ => elem.isCopy
  | .option inner => inner.isCopy
  | .tuple elems => allCopy elems
  | _ => false

/-- Whether every type of a list is copied. -/
def allCopy : List Ty → Bool
  | [] => true
  | t :: ts => t.isCopy && allCopy ts

end

mutual

/-- Whether a generic parameter occurs in the type. -/
def hasGeneric : Ty → Bool
  | .generic _ => true
  | .slice t | .array t _ | .vec t | .option t | .ref t _ | .ptr t _ => t.hasGeneric
  | .tuple ts | .path _ ts _ => anyGeneric ts
  | _ => false

/-- Whether a generic parameter occurs in a type of the list. -/
def anyGeneric : List Ty → Bool
  | [] => false
  | t :: ts => t.hasGeneric || anyGeneric ts

end

mutual

/-- Equality of types that overlooks the copy mark of paths. -/
def same : Ty → Ty → Bool
  | .unknown, .unknown => true
  | .prim a, .prim b => a == b
  | .str, .str => true
  | .string, .string => true
  | .slice a, .slice b => a.same b
  | .array a n, .array b m => n == m && a.same b
  | .tuple as, .tuple bs => sameList as bs
  | .vec a, .vec b => a.same b
  | .option a, .option b => a.same b
  | .ref a m, .ref b n => m == n && a.same b
  | .ptr a m, .ptr b n => m == n && a.same b
  | .path a as _, .path b bs _ => a == b && sameList as bs
  | .generic a, .generic b => a == b
  | _, _ => false

/-- Pointwise `same` of two lists of equal length. -/
def sameList : List Ty → List Ty → Bool
  | [], [] => true
  | a :: as, b :: bs => a.same b && sameList as bs
  | _, _ => false

end

mutual

/-- The Rust spelling of a type; `?` for an unknown one. -/
def render : Ty → String
  | .unknown => "?"
  | .prim name => name
  | .str => "str"
  | .string => "String"
  | .slice elem => "[" ++ elem.render ++ "]"
  | .array elem length => "[" ++ elem.render ++ "; " ++ toString length.toNat ++ "]"
  | .tuple elems => "(" ++ renderList elems ++ ")"
  | .vec elem => "Vec<" ++ elem.render ++ ">"
  | .option inner => "Option<" ++ inner.render ++ ">"
  | .ref target mutable => (if mutable then "&mut " else "&") ++ target.render
  | .ptr target mutable => (if mutable then "*mut " else "*const ") ++ target.render
  | .path name [] _ => name
  | .path name (a :: as) _ => name ++ "<" ++ renderList (a :: as) ++ ">"
  | .generic name => name

/-- The spellings of a list of types, separated by a comma and a blank. -/
def renderList : List Ty → String
  | [] => ""
  | [t] => t.render
  | t :: ts => t.render ++ ", " ++ renderList ts

end

end Ty

end DriverSynth
