import DriverSynth.Ty.Subst

/-! # Parameters decoded from fuzz bytes

A parameter is fuzzable when its value can be decoded from the fuzz input instead of being made by
another call. Its class says how: from a fixed number of bytes, from a chunk of variable length
with a least size, or not at all although it is plain data (unencodable: nested references,
sequences of variable-size items, more than one variable part, sizes beyond 64 bits).

Sizes are 64-bit counts. An array's size is refused as unencodable when the product would not
fit; an option adds a tag byte, which wraps past the largest count.
-/

namespace DriverSynth

/-- The ways a parameter can be decoded from fuzz bytes. -/
inductive FuzzKind where
  | notFuzzable
  | fixed
  | variable
  | unencodable
deriving Repr, DecidableEq, Inhabited

namespace FuzzKind

/-- Every kind, in numeric order. -/
def all : List FuzzKind := [.notFuzzable, .fixed, .variable, .unencodable]

/-- The number of a kind. -/
def number : FuzzKind → Nat
  | .notFuzzable => 0
  | .fixed => 1
  | .variable => 2
  | .unencodable => 3

/-- The name of a kind. -/
def name : FuzzKind → String
  | .notFuzzable => "not_fuzzable"
  | .fixed => "fixed"
  | .variable => "variable"
  | .unencodable => "unencodable"

/-- The name of a kind number; `"unknown"` for a number of no kind. -/
def nameOfNumber (n : Nat) : String :=
  match all.find? (·.number == n) with
  | some k => k.name
  | none => "unknown"

end FuzzKind

/-- The class of a parameter: its kind, the bytes it takes at least (exactly, when fixed), and
whether it is passed by exclusive reference. -/
structure FuzzClass where
  kind : FuzzKind
  minBytes : UInt64
  mutable : Bool
deriving Repr, DecidableEq, Inhabited

namespace FuzzClass

/-- Made by another call. -/
def notFuzzable : FuzzClass := ⟨.notFuzzable, 0, false⟩

/-- Exactly `bytes` bytes. -/
def fixed (bytes : UInt64) : FuzzClass := ⟨.fixed, bytes, false⟩

/-- At least `bytes` bytes, and as many more as the input gives. -/
def varying (bytes : UInt64) : FuzzClass := ⟨.variable, bytes, false⟩

/-- Plain data without a byte encoding. -/
def unencodable : FuzzClass := ⟨.unencodable, 0, false⟩

/-- Whether the parameter need not be made by another call. -/
def fuzzable (c : FuzzClass) : Bool := c.kind != .notFuzzable

end FuzzClass

/-- The largest 64-bit count. -/
def maxBytes : UInt64 := 18446744073709551615

/-- The class of a tuple from its elements' classes: sizes add up, one variable element makes it
variable, two make it unencodable, and an element made by a call makes all of it so. -/
def tupleClass (classes : List FuzzClass) : FuzzClass :=
  go classes 0 0 false
where
  /-- Walks the elements with the fixed bytes and variable elements so far. -/
  go : List FuzzClass → UInt64 → Nat → Bool → FuzzClass
    | [], fixedBytes, variableCount, unencodable =>
      if unencodable || 1 < variableCount then .unencodable
      else if variableCount = 1 then .varying fixedBytes
      else .fixed fixedBytes
    | c :: rest, fixedBytes, variableCount, unencodable =>
      if c.fuzzable && c.minBytes > maxBytes - fixedBytes then go rest fixedBytes variableCount true
      else
        match c.kind with
        | .notFuzzable => .notFuzzable
        | .unencodable => go rest fixedBytes variableCount true
        | .variable => go rest (fixedBytes + c.minBytes) (variableCount + 1) unencodable
        | .fixed => go rest (fixedBytes + c.minBytes) variableCount unencodable

mutual

/-- The class of a value of the type, passed by value. -/
def Ty.valueClass : Ty → FuzzClass
  | .prim name =>
    let bytes := Ty.primByteSize name
    if 0 < bytes then .fixed bytes.toUInt64 else .notFuzzable
  | .str | .string => .varying 0
  | .slice elem | .vec elem =>
    let c := elem.valueClass
    match c.kind with
    | .fixed => .varying 0
    | .variable => .unencodable
    | _ => c
  | .array elem length =>
    let c := elem.valueClass
    match c.kind with
    | .fixed =>
      if length != 0 && c.minBytes > maxBytes / length then .unencodable
      else .fixed (c.minBytes * length)
    | .variable => .unencodable
    | _ => c
  | .tuple elems => tupleClass (Ty.valueClasses elems)
  | .option inner =>
    let c := inner.valueClass
    match c.kind with
    | .fixed => .fixed (c.minBytes + 1)
    | .variable => .varying (c.minBytes + 1)
    | _ => c
  | .ref target _ => if target.valueClass.fuzzable then .unencodable else .notFuzzable
  | _ => .notFuzzable

/-- The classes of a list of types. -/
def Ty.valueClasses : List Ty → List FuzzClass
  | [] => []
  | t :: ts => t.valueClass :: Ty.valueClasses ts

end

/-- The class of a parameter of the type under the bindings: a generic parameter without a binding
makes it not fuzzable; a reference at the top is looked through (not a reference to a reference),
and a fuzzable target is then passed mutably when the reference is mutable. -/
def Ty.fuzzClass (bindings : Bindings) (t : Ty) : FuzzClass :=
  match t.subst bindings with
  | none => .notFuzzable
  | some (.ref (.ref _ _) _) => .notFuzzable
  | some (.ref target mutable) =>
    let c := target.valueClass
    if c.fuzzable then { c with mutable := mutable } else c
  | some concrete => concrete.valueClass

end DriverSynth
