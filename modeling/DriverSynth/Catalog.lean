import DriverSynth.Signature
import DriverSynth.Fault

/-! # Catalogs of functions

A catalog numbers functions from 0 in the order they are added; names are unique and never
empty. Each generic parameter that a signature leaves unbound is bound to the catalog's policy
type (by default `i32`). Conventions are two predicates over the whole signature, either of them
possibly unset: which functions may only begin a sequence (start) and after which a sequence ends
(end). The marks follow the conventions whenever they are set again.

`retainVisible` keeps the public functions outside some modules, numbered afresh.
-/

namespace DriverSynth

/-- Which functions begin and which end a call sequence: two predicates over the signature, each
unset (`none`) until given. -/
structure Conventions where
  isStart : Option (Signature → Bool) := none
  isEnd : Option (Signature → Bool) := none
deriving Inhabited

/-- A function of a catalog with its convention marks. -/
structure Entry where
  sig : Signature
  isStart : Bool
  isEnd : Bool
deriving Repr, Inhabited

namespace Conventions

/-- Whether a predicate is set and holds of a signature. -/
def holds : Option (Signature → Bool) → Signature → Bool
  | some p, sig => p sig
  | none, _ => false

/-- The entry of a signature under the conventions. -/
def mark (conv : Conventions) (sig : Signature) : Entry :=
  ⟨sig, holds conv.isStart sig, holds conv.isEnd sig⟩

/-- The conventions whose start and end functions are those of the given names. -/
def fromNames (starts ends : List String) : Conventions :=
  ⟨some fun sig => starts.contains sig.name, some fun sig => ends.contains sig.name⟩

end Conventions

/-- Functions numbered by insertion, with a generic policy and conventions. -/
structure Catalog where
  policy : Ty := .prim "i32"
  conventions : Conventions := {}
  entries : Array Entry := #[]
deriving Inhabited

namespace Catalog

/-- The number of functions. -/
def size (c : Catalog) : Nat := c.entries.size

/-- The signature of a function id. -/
def sig (c : Catalog) (id : Nat) : Signature := (c.entries.getD id default).sig

/-- Whether a function may only begin a sequence. -/
def isStart (c : Catalog) (id : Nat) : Bool := (c.entries.getD id default).isStart

/-- Whether a sequence ends after the function. -/
def isEnd (c : Catalog) (id : Nat) : Bool := (c.entries.getD id default).isEnd

/-- The id of a function name. -/
def find? (c : Catalog) (name : String) : Option Nat :=
  c.entries.findIdx? (·.sig.name == name)

/-- Adds a function, binding its unbound generics to the policy; its id is the old size. -/
def add (c : Catalog) (sig : Signature) : Except Fault (Nat × Catalog) :=
  if sig.name.isEmpty then .error .emptyFunctionName
  else if (c.find? sig.name).isSome then .error (.duplicateFunction sig.name)
  else
    let sig := { sig with bindings := sig.bindings.insertAll (sig.generics.map (·, c.policy)) }
    .ok (c.size, { c with entries := c.entries.push (c.conventions.mark sig) })

/-- Sets the conventions and marks every function afresh. -/
def setConventions (c : Catalog) (conv : Conventions) : Catalog :=
  { c with conventions := conv, entries := c.entries.map (conv.mark ·.sig) }

/-- Adds functions in order; each gets its id or the reason it was refused. -/
def addAll (c : Catalog) (sigs : List Signature) : List (Except Fault Nat) × Catalog :=
  sigs.foldl (fun (results, c) sig =>
    match c.add sig with
    | .ok (id, c) => (results ++ [.ok id], c)
    | .error e => (results ++ [.error e], c)) ([], c)

/-- Whether a module hides a path: the path is the module or lies below it, after `::`. -/
def hides (module path : String) : Bool :=
  !module.isEmpty && module.isPrefixOf path &&
    (path.length == module.length || (path.drop module.length).startsWith "::")

/-- Whether one of the modules hides the path. -/
def hiddenBy (modules : List String) (path : String) : Bool :=
  modules.any (hides · path)

/-- The catalog of the public functions whose name and trait no module hides. -/
def retainVisible (c : Catalog) (modules : List String) : Catalog :=
  let kept := c.entries.toList.filter fun e =>
    e.sig.visibility == .pub && !hiddenBy modules e.sig.name &&
      !(e.sig.traitPath.map (hiddenBy modules) |>.getD false)
  let empty : Catalog := { policy := c.policy, conventions := c.conventions }
  (empty.addAll (kept.map (·.sig))).2

end Catalog

end DriverSynth
