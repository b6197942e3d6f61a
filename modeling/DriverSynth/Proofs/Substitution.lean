import DriverSynth.Ty.Subst

/-! # Substitution is structural replacement

`Ty.subst` returns a type in which no generic parameter occurs as it is, and rebuilds any other
node around its substituted parts. The plain structural replacement `Ty.replace` maps each
generic parameter through a function and rebuilds every other node with its kind, name, length,
mutability and copy mark. Substitution fails exactly when a generic parameter of the type has no
binding, and otherwise gives the replacement by the bindings (`Ty.subst_eq_replace`): the early
return agrees with the rebuild, and a kind without parts never reaches the `none` of the last
case, since the early return takes every such type.
-/

namespace DriverSynth

namespace Bindings

/-- The type bound to a name, or the name as a generic parameter when it is unbound. -/
def typeOf (bindings : Bindings) (name : String) : Ty := (bindings.lookup? name).getD (.generic name)

/-- Whether every one of the names is bound. -/
def bindsAll (bindings : Bindings) (names : List String) : Bool :=
  names.all fun name => (bindings.lookup? name).isSome

@[simp] theorem bindsAll_nil (bindings : Bindings) : bindings.bindsAll [] = true := rfl

@[simp] theorem bindsAll_append (bindings : Bindings) (names names' : List String) :
    bindings.bindsAll (names ++ names') = (bindings.bindsAll names && bindings.bindsAll names') :=
  List.all_append

theorem bindsAll_eq_false_iff {bindings : Bindings} {names : List String} :
    bindings.bindsAll names = false ↔ ∃ name ∈ names, bindings.lookup? name = none := by
  simp [bindsAll, List.all_eq_false]

end Bindings

namespace Ty

mutual

/-- The generic parameters that occur in a type, left to right. -/
def generics : Ty → List String
  | .generic name => [name]
  | .slice t | .array t _ | .vec t | .option t | .ref t _ | .ptr t _ => t.generics
  | .tuple ts | .path _ ts _ => genericsList ts
  | _ => []

/-- The generic parameters that occur in the types of a list. -/
def genericsList : List Ty → List String
  | [] => []
  | t :: ts => t.generics ++ genericsList ts

end

mutual

/-- Replaces each generic parameter `g` by `σ g`, and rebuilds every other node with its kind,
name, length, mutability and copy mark; what `σ g` holds is not replaced again. -/
def replace (σ : String → Ty) : Ty → Ty
  | .generic name => σ name
  | .slice elem => .slice (replace σ elem)
  | .array elem length => .array (replace σ elem) length
  | .tuple elems => .tuple (replaceList σ elems)
  | .vec elem => .vec (replace σ elem)
  | .option inner => .option (replace σ inner)
  | .ref target mutable => .ref (replace σ target) mutable
  | .ptr target mutable => .ptr (replace σ target) mutable
  | .path name args copy => .path name (replaceList σ args) copy
  | t => t

/-- `replace` on every type of a list. -/
def replaceList (σ : String → Ty) : List Ty → List Ty
  | [] => []
  | t :: ts => replace σ t :: replaceList σ ts

end

mutual

/-- The test for a generic parameter finds one exactly when one occurs. -/
theorem hasGeneric_eq_false_iff : ∀ t : Ty, t.hasGeneric = false ↔ t.generics = []
  | .generic _ => by simp [hasGeneric, generics]
  | .unknown | .prim _ | .str | .string => by simp [hasGeneric, generics]
  | .slice t | .array t _ | .vec t | .option t | .ref t _ | .ptr t _ => hasGeneric_eq_false_iff t
  | .tuple ts | .path _ ts _ => anyGeneric_eq_false_iff ts

theorem anyGeneric_eq_false_iff : ∀ ts : List Ty, anyGeneric ts = false ↔ genericsList ts = []
  | [] => by simp [anyGeneric, genericsList]
  | t :: ts => by
    simp only [anyGeneric, genericsList, Bool.or_eq_false_iff, List.append_eq_nil_iff,
      hasGeneric_eq_false_iff t, anyGeneric_eq_false_iff ts]

end

mutual

/-- A type without generic parameters is its own replacement. -/
theorem replace_of_generics_eq_nil (σ : String → Ty) : ∀ t : Ty, t.generics = [] → t.replace σ = t
  | .generic _, noGenerics => by simp [generics] at noGenerics
  | .unknown, _ | .prim _, _ | .str, _ | .string, _ => rfl
  | .slice t, noGenerics | .vec t, noGenerics | .option t, noGenerics => by
    simp only [replace, replace_of_generics_eq_nil σ t noGenerics]
  | .array t _, noGenerics | .ref t _, noGenerics | .ptr t _, noGenerics => by
    simp only [replace, replace_of_generics_eq_nil σ t noGenerics]
  | .tuple ts, noGenerics | .path _ ts _, noGenerics => by
    simp only [replace, replaceList_of_generics_eq_nil σ ts noGenerics]

theorem replaceList_of_generics_eq_nil (σ : String → Ty) :
    ∀ ts : List Ty, genericsList ts = [] → replaceList σ ts = ts
  | [], _ => rfl
  | t :: ts, noGenerics => by
    obtain ⟨head, tail⟩ := List.append_eq_nil_iff.mp noGenerics
    simp only [replaceList, replace_of_generics_eq_nil σ t head,
      replaceList_of_generics_eq_nil σ ts tail]

end

section Rebuild

variable {bindings : Bindings}

/-- One node of substitution: the early return when no generic parameter occurs in the part,
else the rebuild around the substituted part. Both give the rebuilt replacement when the part's
generic parameters are bound, and `none` otherwise. -/
theorem rebuild_eq {α : Type} (rebuild : α → Ty) {part replaced : α} {found : Bool}
    {names : List String} {substituted : Option α}
    (part_eq : substituted = if bindings.bindsAll names then some replaced else none)
    (early : found = false → names = [] ∧ replaced = part) :
    (if found then substituted.map rebuild else some (rebuild part)) =
      if bindings.bindsAll names then some (rebuild replaced) else none := by
  cases found with
  | true =>
    rw [part_eq, if_pos rfl]
    split <;> rfl
  | false =>
    obtain ⟨rfl, rfl⟩ := early rfl
    rfl

theorem early_of_ty (σ : String → Ty) (t : Ty) :
    t.hasGeneric = false → t.generics = [] ∧ t.replace σ = t := fun absent =>
  have noGenerics := (hasGeneric_eq_false_iff t).mp absent
  ⟨noGenerics, replace_of_generics_eq_nil σ t noGenerics⟩

theorem early_of_list (σ : String → Ty) (ts : List Ty) :
    anyGeneric ts = false → genericsList ts = [] ∧ replaceList σ ts = ts := fun absent =>
  have noGenerics := (anyGeneric_eq_false_iff ts).mp absent
  ⟨noGenerics, replaceList_of_generics_eq_nil σ ts noGenerics⟩

end Rebuild

mutual

/-- Substitution gives the replacement by the bindings when every generic parameter of the type
is bound, and `none` otherwise; one case per kind, each through `rebuild_eq`. -/
theorem subst_eq (bindings : Bindings) : ∀ t : Ty,
    t.subst bindings =
      if bindings.bindsAll t.generics then some (t.replace bindings.typeOf) else none
  | .generic name => by
    cases bound : bindings.lookup? name <;>
      simp [subst, generics, replace, Bindings.bindsAll, Bindings.typeOf, bound]
  | .unknown | .prim _ | .str | .string => rfl
  | .slice t => by
    simp only [subst, hasGeneric, generics, replace]
    exact rebuild_eq .slice (subst_eq bindings t) (early_of_ty _ t)
  | .array t length => by
    simp only [subst, hasGeneric, generics, replace]
    exact rebuild_eq (.array · length) (subst_eq bindings t) (early_of_ty _ t)
  | .vec t => by
    simp only [subst, hasGeneric, generics, replace]
    exact rebuild_eq .vec (subst_eq bindings t) (early_of_ty _ t)
  | .option t => by
    simp only [subst, hasGeneric, generics, replace]
    exact rebuild_eq .option (subst_eq bindings t) (early_of_ty _ t)
  | .ref t mutable => by
    simp only [subst, hasGeneric, generics, replace]
    exact rebuild_eq (.ref · mutable) (subst_eq bindings t) (early_of_ty _ t)
  | .ptr t mutable => by
    simp only [subst, hasGeneric, generics, replace]
    exact rebuild_eq (.ptr · mutable) (subst_eq bindings t) (early_of_ty _ t)
  | .tuple ts => by
    simp only [subst, hasGeneric, generics, replace]
    exact rebuild_eq .tuple (substList_eq bindings ts) (early_of_list _ ts)
  -- the copy mark is read back through `isCopy`, which gives a path its own mark
  | .path name ts copy => by
    simp only [subst, hasGeneric, generics, replace, isCopy]
    exact rebuild_eq (.path name · copy) (substList_eq bindings ts) (early_of_list _ ts)

theorem substList_eq (bindings : Bindings) : ∀ ts : List Ty,
    substList bindings ts =
      if bindings.bindsAll (genericsList ts) then some (replaceList bindings.typeOf ts) else none
  | [] => rfl
  | t :: ts => by
    rw [substList, subst_eq bindings t, substList_eq bindings ts, genericsList,
      Bindings.bindsAll_append]
    cases bindings.bindsAll t.generics <;> cases bindings.bindsAll (genericsList ts) <;> rfl

end

/-- Substitution fails exactly when a generic parameter of the type is unbound, and otherwise
replaces each one by its binding, not substituting inside the binding, and rebuilds the rest. -/
theorem subst_eq_replace (bindings : Bindings) (t : Ty) :
    (t.subst bindings = none ↔ ∃ g ∈ t.generics, bindings.lookup? g = none) ∧
      ((∀ g ∈ t.generics, (bindings.lookup? g).isSome) →
        t.subst bindings = some (t.replace bindings.typeOf)) ∧
      (t.hasGeneric = false → t.replace bindings.typeOf = t) := by
  refine ⟨?_, fun bound => ?_, fun absent => (early_of_ty _ t absent).2⟩
  · rw [subst_eq, ← Bindings.bindsAll_eq_false_iff]
    cases bindings.bindsAll t.generics <;> simp
  · have all : bindings.bindsAll t.generics = true := List.all_eq_true.mpr bound
    rw [subst_eq, if_pos all]

end Ty

end DriverSynth
