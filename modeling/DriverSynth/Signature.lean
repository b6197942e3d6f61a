import DriverSynth.Ty.Subst

/-! # Function signatures

A signature is what a catalog knows of one function: its full name, parameter and result types,
generic parameters with the types bound to them, visibility, the trait it implements, whether it
is `unsafe`, and whether it is plain or generic. `Signature.pretty` writes it as a Rust
declaration.
-/

namespace DriverSynth

/-- Where a function can be called from. -/
inductive Visibility where
  | pub
  | crate
  | priv
deriving Repr, DecidableEq, Inhabited

namespace Visibility

/-- Every visibility, in numeric order. -/
def all : List Visibility := [.pub, .crate, .priv]

/-- The number of a visibility. -/
def number : Visibility → Nat
  | .pub => 0
  | .crate => 1
  | .priv => 2

/-- The name of a visibility. -/
def name : Visibility → String
  | .pub => "public"
  | .crate => "crate"
  | .priv => "private"

/-- The visibility of a name. -/
def ofName? (s : String) : Option Visibility := all.find? (·.name == s)

/-- The name of a visibility number; `"unknown"` for a number of none. -/
def nameOfNumber (n : Nat) : String :=
  match all.find? (·.number == n) with
  | some v => v.name
  | none => "unknown"

end Visibility

/-- Whether a function has generic parameters that a search must not instantiate. -/
inductive FnKind where
  | plain
  | generic
deriving Repr, DecidableEq, Inhabited

namespace FnKind

/-- Every kind, in numeric order. -/
def all : List FnKind := [.plain, .generic]

/-- The number of a kind. -/
def number : FnKind → Nat
  | .plain => 0
  | .generic => 1

/-- The name of a kind. -/
def name : FnKind → String
  | .plain => "plain"
  | .generic => "generic"

/-- The kind of a name. -/
def ofName? (s : String) : Option FnKind := all.find? (·.name == s)

/-- The name of a kind number; `"unknown"` for a number of none. -/
def nameOfNumber (n : Nat) : String :=
  match all.find? (·.number == n) with
  | some k => k.name
  | none => "unknown"

end FnKind

/-- What a catalog knows of one function. -/
structure Signature where
  name : String
  params : List Ty := []
  output : Option Ty := none
  generics : List String := []
  bindings : Bindings := []
  visibility : Visibility := .pub
  traitPath : Option String := none
  isUnsafe : Bool := false
  kind : FnKind := .plain
deriving Repr, Inhabited

namespace Signature

/-- The signature as a Rust declaration: `unsafe fn name<T, U>(A, B) -> R`. -/
def pretty (sig : Signature) : String :=
  let generics := match sig.generics with
    | [] => ""
    | gs => "<" ++ ", ".intercalate gs ++ ">"
  let output := match sig.output with
    | some t => " -> " ++ t.render
    | none => ""
  (if sig.isUnsafe then "unsafe " else "") ++ "fn " ++ sig.name ++ generics ++ "(" ++
    Ty.renderList sig.params ++ ")" ++ output

end Signature

end DriverSynth
