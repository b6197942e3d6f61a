import DriverSynth.Ty.Basic

/-! # Substituting generic parameters

`Bindings` map generic names to types, sorted by name with each name once; a binding that is
already there is never replaced (`Bindings.insert`). Substitution replaces each generic parameter
of a type by its binding, once: a bound type is not substituted again. It fails when a generic
parameter has no binding. A type without generic parameters is kept whole; any other is rebuilt
node by node.
-/

namespace DriverSynth

/-- Types bound to generic names, sorted by name, each name once. -/
abbrev Bindings := List (String × Ty)

namespace Bindings

/-- The type bound to a name. -/
def lookup? (bindings : Bindings) (name : String) : Option Ty :=
  (bindings.find? (·.1 == name)).map (·.2)

/-- Binds a name unless it is bound already, keeping the names sorted. -/
def insert (name : String) (ty : Ty) : Bindings → Bindings
  | [] => [(name, ty)]
  | (k, v) :: rest =>
    if name < k then (name, ty) :: (k, v) :: rest
    else if name = k then (k, v) :: rest
    else (k, v) :: insert name ty rest

/-- Adds bindings in order; of two for one name the first stays. -/
def insertAll (bindings : Bindings) (more : List (String × Ty)) : Bindings :=
  more.foldl (fun acc b => insert b.1 b.2 acc) bindings

end Bindings

namespace Ty

mutual

/-- Replaces every generic parameter by its binding; `none` when one is unbound. A type in which
no generic parameter occurs is returned as it is; any other is rebuilt around its substituted
parts with its own length, mutability and copy mark, and a kind without parts gives `none`. -/
def subst (bindings : Bindings) : Ty → Option Ty
  | .generic name => bindings.lookup? name
  | t@(.slice elem) => if t.hasGeneric then (subst bindings elem).map .slice else some t
  | t@(.array elem length) =>
    if t.hasGeneric then (subst bindings elem).map (.array · length) else some t
  | t@(.tuple elems) => if t.hasGeneric then (substList bindings elems).map .tuple else some t
  | t@(.vec elem) => if t.hasGeneric then (subst bindings elem).map .vec else some t
  | t@(.option inner) => if t.hasGeneric then (subst bindings inner).map .option else some t
  | t@(.ref target mutable) =>
    if t.hasGeneric then (subst bindings target).map (.ref · mutable) else some t
  | t@(.ptr target mutable) =>
    if t.hasGeneric then (subst bindings target).map (.ptr · mutable) else some t
  | t@(.path name args _) =>
    if t.hasGeneric then (substList bindings args).map (.path name · t.isCopy) else some t
  | t => if t.hasGeneric then none else some t

/-- Substitutes in every type of a list; `none` when one fails. -/
def substList (bindings : Bindings) : List Ty → Option (List Ty)
  | [] => some []
  | t :: ts =>
    match subst bindings t, substList bindings ts with
    | some t', some ts' => some (t' :: ts')
    | _, _ => none

end

end Ty

end DriverSynth
