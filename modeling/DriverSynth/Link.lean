import DriverSynth.Ty.Basic

/-! # How a value reaches a parameter

`link produced consumed` says how a value of type `produced`, the result of one call, can be
passed as a parameter of type `consumed`: moved or copied when the types are the same, borrowed
when the parameter is a reference to it (also through the coercions `String` to `&str`,
`Vec<T>` to `&[T]` and `&mut T` to `&T`), pointed at by a raw pointer, which needs `unsafe`, or
copied out of a shared reference. Types that are unknown or still generic link to nothing.
-/

namespace DriverSynth

/-- How a parameter takes the value it is given. -/
inductive Access where
  | move
  | copy
  | shared
  | exclusive
  | incompatible
deriving Repr, DecidableEq, Inhabited

namespace Access

/-- Every access mode, in numeric order. -/
def all : List Access := [.move, .copy, .shared, .exclusive, .incompatible]

/-- The number of an access mode. -/
def number : Access → Nat
  | .move => 0
  | .copy => 1
  | .shared => 2
  | .exclusive => 3
  | .incompatible => 4

/-- The name of an access mode. -/
def name : Access → String
  | .move => "move"
  | .copy => "copy"
  | .shared => "shared"
  | .exclusive => "exclusive"
  | .incompatible => "incompatible"

/-- The name of a mode number; `"unknown"` for a number of no mode. -/
def nameOfNumber (n : Nat) : String :=
  match all.find? (·.number == n) with
  | some a => a.name
  | none => "unknown"

/-- The borrow that a reference asks for: exclusive when mutable, shared otherwise. -/
def borrow (mutable : Bool) : Access := if mutable then .exclusive else .shared

end Access

/-- How a produced value can be passed to a parameter, and whether that needs `unsafe`. -/
structure Link where
  mode : Access
  needsUnsafe : Bool
deriving Repr, DecidableEq, Inhabited

/-- No way to pass the value. -/
def Link.none : Link := ⟨.incompatible, false⟩

/-- Whether the value can be passed at all. -/
def Link.compatible (l : Link) : Bool := l.mode != .incompatible

/-- A type that the link rules accept: known and free of generic parameters. -/
def Ty.isConcrete (t : Ty) : Bool := t.kind != .unknown && !t.hasGeneric

/-- How a value of type `produced` can be passed as a parameter of type `consumed`. -/
def link (produced consumed : Ty) : Link :=
  if !produced.isConcrete || !consumed.isConcrete then Link.none
  else if produced.same consumed then
    ⟨if produced.isCopy then .copy else .move, false⟩
  else
    match consumed with
    | .ref target mutable =>
      if target.same produced then ⟨Access.borrow mutable, false⟩
      else
        match target, produced with
        | .str, .string => if mutable then Link.none else ⟨.shared, false⟩
        | .slice elem, .vec elem' =>
          if elem.same elem' then ⟨Access.borrow mutable, false⟩ else Link.none
        | _, .ref inner true =>
          if !mutable && inner.same target then ⟨.shared, false⟩ else Link.none
        | _, _ => Link.none
    | .ptr target mutable =>
      if target.same produced then ⟨Access.borrow mutable, true⟩ else Link.none
    | _ =>
      match produced with
      | .ref inner _ =>
        if inner.same consumed && consumed.isCopy then ⟨.copy, false⟩ else Link.none
      | _ => Link.none

end DriverSynth
