import DriverSynth.Ty.Doc
import DriverSynth.Proofs.DocText
import Mathlib.Data.String.Basic

/-! # Types as documents, read back

A type's document reads back as the type when the type nests no deeper than the reader allows,
and fails with `typeTooDeep` exactly when it nests deeper (`Ty.ofDoc_toDoc`). The depth of a type
(`Ty.depth`) counts the levels below the top type: zero for a type without inner types, and one
more than its deepest inner type, element or argument otherwise. The reader spends one level on
each type it reads, so with `levels` to spare it reads exactly the types of depth below `levels`
(`Ty.ofDocWithin_toDoc`), one case per kind of type.
-/

namespace DriverSynth

namespace Ty

mutual

/-- How many levels of inner types, elements and arguments lie below a type. -/
def depth : Ty → Nat
  | .slice t | .array t _ | .vec t | .option t | .ref t _ | .ptr t _ => t.depth + 1
  | .tuple ts | .path _ ts _ => depthList ts
  | _ => 0

/-- The depth that a list of inner types gives the type that holds them. -/
def depthList : List Ty → Nat
  | [] => 0
  | t :: ts => max (t.depth + 1) (depthList ts)

end

mutual

/-- The document of a type is canonical. -/
theorem toDoc_canonical : ∀ t : Ty, t.toDoc.Canonical
  | .unknown | .prim _ | .str | .string | .generic _ => by
    simp only [toDoc]
    exact Doc.record_canonical (by simp [Doc.Canonical.str])
  | .slice t | .vec t | .option t => by
    simp only [toDoc]
    exact Doc.record_canonical (by simp [Doc.Canonical.str, toDoc_canonical t])
  | .array t length => by
    simp only [toDoc]
    exact Doc.record_canonical
      (by simp [Doc.Canonical.str, toDoc_canonical t, Doc.Canonical.nat (UInt64.toNat_lt length)])
  | .ref t mutable | .ptr t mutable => by
    simp only [toDoc]
    exact Doc.record_canonical
      (by simp [Doc.Canonical.str, toDoc_canonical t, Doc.Canonical.bool mutable])
  | .tuple ts => by
    simp only [toDoc]
    exact Doc.record_canonical
      (by simp [Doc.Canonical.str, Doc.Canonical.arr (toDocs_canonical ts)])
  | .path name ts copy => by
    simp only [toDoc]
    exact Doc.record_canonical (by
      simp [Doc.Canonical.str, Doc.Canonical.arr (toDocs_canonical ts), Doc.Canonical.bool copy])

/-- The documents of a list of types are canonical. -/
theorem toDocs_canonical : ∀ ts : List Ty, ∀ d ∈ toDocs ts, d.Canonical
  | [] => by simp [toDocs]
  | t :: ts => by
    intro d member
    simp only [toDocs, List.mem_cons] at member
    rcases member with rfl | member
    · exact toDoc_canonical t
    · exact toDocs_canonical ts d member

end

mutual

/-- With `levels` levels to spare, a type's document reads back as the type when it is less than
`levels` deep, and fails with `typeTooDeep` otherwise. -/
theorem ofDocWithin_toDoc : ∀ (levels : Nat) (t : Ty),
    ofDocWithin levels t.toDoc = if t.depth < levels then .ok t else .error .typeTooDeep
  | 0, t => by simp [ofDocWithin]
  | levels + 1, .unknown | levels + 1, .str | levels + 1, .string | levels + 1, .prim _
  | levels + 1, .generic _ => by
    simp [-String.lt_iff_ltb, toDoc, Doc.record, Doc.insertField, Doc.member, Doc.get?, Doc.toStr,
      shaped, ofDocWithin, bind, Except.bind, pure, Except.pure, depth]
  | levels + 1, .slice t | levels + 1, .vec t | levels + 1, .option t => by
    simp [-String.lt_iff_ltb, toDoc, Doc.record, Doc.insertField, Doc.member, Doc.get?, Doc.toStr,
      shaped, ofDocWithin, bind, Except.bind, pure, Except.pure, ofDocWithin_toDoc levels t, depth]
    by_cases fits : t.depth < levels <;> simp [fits]
  | levels + 1, .array t length => by
    simp [-String.lt_iff_ltb, toDoc, Doc.record, Doc.insertField, Doc.member, Doc.get?, Doc.toStr,
      Doc.toWord, shaped, ofDocWithin, bind, Except.bind, pure, Except.pure,
      ofDocWithin_toDoc levels t, depth]
    by_cases fits : t.depth < levels <;> simp [fits]
  | levels + 1, .ref t mutable | levels + 1, .ptr t mutable => by
    simp [-String.lt_iff_ltb, toDoc, Doc.record, Doc.insertField, Doc.member, Doc.memberOr,
      Doc.get?, Doc.toStr, Doc.toBool, shaped, ofDocWithin, bind, Except.bind, pure, Except.pure,
      ofDocWithin_toDoc levels t, depth]
    by_cases fits : t.depth < levels <;> simp [fits]
  | levels + 1, .tuple ts => by
    -- the depth of a tuple is that of its elements, read with one level less
    have elements := ofDocsWithin_toDocs levels ts
    unfold ofDocsWithin at elements
    simp only [depth, Nat.lt_add_one_iff]
    simp [-String.lt_iff_ltb, toDoc, Doc.record, Doc.insertField, Doc.member, Doc.get?, Doc.toStr,
      Doc.items, shaped, ofDocWithin, bind, Except.bind, pure, Except.pure, elements]
    by_cases fits : depthList ts ≤ levels <;> simp [fits]
  | levels + 1, .path name ts copy => by
    have args := ofDocsWithin_toDocs levels ts
    unfold ofDocsWithin at args
    simp only [depth, Nat.lt_add_one_iff]
    simp [-String.lt_iff_ltb, toDoc, Doc.record, Doc.insertField, Doc.member, Doc.memberOr,
      Doc.has, Doc.get?, Doc.toStr, Doc.toBool, Doc.items, shaped, ofDocWithin, bind, Except.bind,
      pure, Except.pure, args]
    by_cases fits : depthList ts ≤ levels <;> simp [fits]

/-- With `levels` levels to spare, the documents of a list of inner types read back as the list
when the list gives a depth of at most `levels`, and fail with `typeTooDeep` otherwise. -/
theorem ofDocsWithin_toDocs : ∀ (levels : Nat) (ts : List Ty),
    ofDocsWithin levels (toDocs ts) =
      if depthList ts ≤ levels then .ok ts else .error .typeTooDeep
  | _, [] => by simp [ofDocsWithin, toDocs, depthList, pure, Except.pure]
  | levels, t :: ts => by
    have rest := ofDocsWithin_toDocs levels ts
    unfold ofDocsWithin at rest ⊢
    simp only [depthList, Nat.max_le, Nat.add_one_le_iff]
    simp [toDocs, List.mapM_cons, ofDocWithin_toDoc levels t, rest, bind, Except.bind, pure,
      Except.pure]
    by_cases head : t.depth < levels <;> by_cases tail : depthList ts ≤ levels <;>
      simp [head, tail]

end

/-- A type's document reads back as the type exactly when the type nests at most
`maxTypeDepth` levels deep; a deeper one is refused with `typeTooDeep`. -/
theorem ofDoc_toDoc (t : Ty) :
    ofDoc t.toDoc = if t.depth ≤ maxTypeDepth then .ok t else .error .typeTooDeep := by
  rw [ofDoc, ofDocWithin_toDoc]
  simp only [Nat.lt_add_one_iff]

/-- The documents of types that nest at most `maxTypeDepth` levels deep read back, in order. -/
theorem mapM_ofDoc_toDocs : ∀ {ts : List Ty}, (∀ t ∈ ts, t.depth ≤ maxTypeDepth) →
    (toDocs ts).mapM ofDoc = .ok ts
  | [], _ => rfl
  | t :: ts, shallow => by
    have head := ofDoc_toDoc t
    rw [if_pos (shallow t List.mem_cons_self)] at head
    have tail := mapM_ofDoc_toDocs (fun t' member => shallow t' (List.mem_cons_of_mem _ member))
    simp [toDocs, head, tail, bind, Except.bind, pure, Except.pure]

/-- A type's document is an object, never `null`. -/
theorem toDoc_ne_null (t : Ty) : t.toDoc ≠ .null := by
  cases t <;> simp [toDoc, Doc.record]

end Ty

end DriverSynth
