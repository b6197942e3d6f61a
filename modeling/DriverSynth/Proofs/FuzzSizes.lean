import DriverSynth.Fuzz

/-! # Fuzzable classes counted without wrap-around

`Ty.fuzzClass` counts a class's bytes in 64 bits; its reference `Ty.sizedClass` counts them over
the naturals and calls a class with no 64-bit count unencodable. The two agree on every type in
which no option holds a value of 2^64 - 1 bytes (`Ty.fuzzClass_sized`): arrays and tuples refuse
exactly the sizes that overflow, but an option adds its tag byte without a test, so
`Option<[u8; 2^64 - 1]>` comes out fixed with no bytes (`optionOfLargestArray_wraps`).
-/

namespace DriverSynth

/-- A fuzzable class whose bytes are counted over the naturals. -/
structure SizedClass where
  kind : FuzzKind
  bytes : Nat
  mutable : Bool
deriving Repr, DecidableEq

namespace SizedClass

/-- Made by another call. -/
def notFuzzable : SizedClass := ⟨.notFuzzable, 0, false⟩

/-- Plain data without a byte encoding. -/
def unencodable : SizedClass := ⟨.unencodable, 0, false⟩

/-- A class of the kind and bytes, or unencodable when the bytes have no 64-bit count. -/
def fit (kind : FuzzKind) (bytes : Nat) : SizedClass :=
  if bytes ≤ maxBytes.toNat then ⟨kind, bytes, false⟩ else unencodable

/-- The class of a tuple, from its elements and the bytes and variable elements so far: an element
made by a call or unencodable decides it; at the end two variable elements make it unencodable,
one variable, and the bytes must fit. -/
def tupleFrom : List SizedClass → Nat → Nat → Bool → SizedClass
  | [], bytes, counted, spoiled =>
    if spoiled || 1 < counted then unencodable
    else fit (if counted = 1 then .variable else .fixed) bytes
  | c :: rest, bytes, counted, spoiled =>
    match c.kind with
    | .notFuzzable => notFuzzable
    | .unencodable => tupleFrom rest bytes counted true
    | .variable => tupleFrom rest (bytes + c.bytes) (counted + 1) spoiled
    | .fixed => tupleFrom rest (bytes + c.bytes) counted spoiled

/-- The class of a tuple of elements of the given classes. -/
def tuple (classes : List SizedClass) : SizedClass := tupleFrom classes 0 0 false

end SizedClass

/-- A class counted in 64 bits, read over the naturals. -/
def FuzzClass.sized (c : FuzzClass) : SizedClass := ⟨c.kind, c.minBytes.toNat, c.mutable⟩

namespace Ty

mutual

/-- The reference class of a value: sized primitives take their size, strings are variable, and so
are slices and vectors of fixed elements; arrays take their elements' bytes times their length,
and an option adds a tag byte. -/
def sizedValue : Ty → SizedClass
  | .prim name =>
    if 0 < primByteSize name then ⟨.fixed, primByteSize name, false⟩ else .notFuzzable
  | .str | .string => ⟨.variable, 0, false⟩
  | .slice elem | .vec elem =>
    match elem.sizedValue.kind with
    | .fixed => ⟨.variable, 0, false⟩
    | .variable => .unencodable
    | _ => elem.sizedValue
  | .array elem length =>
    match elem.sizedValue.kind with
    | .fixed => .fit .fixed (elem.sizedValue.bytes * length.toNat)
    | .variable => .unencodable
    | _ => elem.sizedValue
  | .tuple elems => .tuple (sizedValues elems)
  | .option inner =>
    match inner.sizedValue.kind with
    | .fixed => .fit .fixed (inner.sizedValue.bytes + 1)
    | .variable => .fit .variable (inner.sizedValue.bytes + 1)
    | _ => inner.sizedValue
  | .ref target _ =>
    if target.sizedValue.kind = .notFuzzable then .notFuzzable else .unencodable
  | _ => .notFuzzable

/-- The reference classes of a list of types. -/
def sizedValues : List Ty → List SizedClass
  | [] => []
  | t :: ts => t.sizedValue :: sizedValues ts

end

/-- The reference class of a parameter of the type under the bindings: an unbound generic makes
it made by a call; a reference at the top is looked through (not a reference to a reference),
and a fuzzable target is then passed mutably when the reference is mutable. -/
def sizedClass (bindings : Bindings) (t : Ty) : SizedClass :=
  match t.subst bindings with
  | none => .notFuzzable
  | some (.ref (.ref _ _) _) => .notFuzzable
  | some (.ref target mutable) =>
    if target.sizedValue.kind = .notFuzzable then target.sizedValue
    else { target.sizedValue with mutable }
  | some concrete => concrete.sizedValue

mutual

/-- Whether an option in the type holds a fixed or variable value of 2^64 - 1 bytes, so that a
64-bit count of the option's bytes wraps. -/
def wrapsOption : Ty → Bool
  | .slice elem | .vec elem | .array elem _ | .ref elem _ => elem.wrapsOption
  | .option inner =>
    inner.wrapsOption || (inner.sizedValue.bytes == maxBytes.toNat &&
      (inner.sizedValue.kind == .fixed || inner.sizedValue.kind == .variable))
  | .tuple elems => wrapsOptions elems
  | _ => false

/-- Whether an option in a type of the list wraps. -/
def wrapsOptions : List Ty → Bool
  | [] => false
  | t :: ts => t.wrapsOption || wrapsOptions ts

end

end Ty

theorem toNat_le_maxBytes (x : UInt64) : x.toNat ≤ maxBytes.toNat := by
  have := x.toNat_lt
  simp only [maxBytes, UInt64.reduceToNat]
  omega

namespace SizedClass

/-- A walk that has met an unencodable element, or bytes beyond a 64-bit count, ends unencodable
unless an element is made by a call, whatever it counts from there. -/
theorem tupleFrom_spoiled (rest : List SizedClass) {bytes counted : Nat} {spoiled : Bool}
    (spoilt : spoiled = true ∨ maxBytes.toNat < bytes) (bytes' counted' : Nat) :
    tupleFrom rest bytes counted spoiled = tupleFrom rest bytes' counted' true := by
  induction rest generalizing bytes counted spoiled bytes' counted' with
  | nil =>
    simp only [tupleFrom, Bool.true_or, ite_true]
    rcases spoilt with rfl | beyond
    · simp
    · have tooMany : ¬bytes ≤ maxBytes.toNat := Nat.not_le.mpr beyond
      split <;> simp [fit, tooMany]
  | cons c rest ih =>
    cases kind : c.kind
    · simp [tupleFrom, kind]
    · simp only [tupleFrom, kind]
      exact ih (spoilt.imp_right fun beyond => by omega) _ _
    · simp only [tupleFrom, kind]
      exact ih (spoilt.imp_right fun beyond => by omega) _ _
    · simp only [tupleFrom, kind]
      exact ih (.inl rfl) _ _

end SizedClass

/-- A tuple's walk in 64 bits, read over the naturals, is the reference walk: an element whose
bytes would overflow the count so far is refused as the reference refuses the total. -/
theorem tupleClass_go_sized (classes : List FuzzClass) (fixedBytes : UInt64)
    (variableCount : Nat) (unencodable : Bool) :
    (tupleClass.go classes fixedBytes variableCount unencodable).sized =
      SizedClass.tupleFrom (classes.map FuzzClass.sized) fixedBytes.toNat variableCount
        unencodable := by
  induction classes generalizing fixedBytes variableCount unencodable with
  | nil =>
    have fits := toNat_le_maxBytes fixedBytes
    simp only [tupleClass.go, SizedClass.tupleFrom, List.map_nil]
    split
    · rfl
    · simp only [SizedClass.fit, fits, ite_true]
      split <;> rfl
  | cons c rest ih =>
    have fits := toNat_le_maxBytes fixedBytes
    simp only [tupleClass.go, List.map_cons, SizedClass.tupleFrom]
    have kindEq : (FuzzClass.sized c).kind = c.kind := rfl
    have bytesEq : (FuzzClass.sized c).bytes = c.minBytes.toNat := rfl
    rw [kindEq, bytesEq]
    -- the room left below the largest count, over the naturals
    have room : (maxBytes - fixedBytes).toNat = maxBytes.toNat - fixedBytes.toNat :=
      UInt64.toNat_sub_of_le _ _ (UInt64.le_iff_toNat_le.mpr fits)
    by_cases overflow : (c.fuzzable && decide (c.minBytes > maxBytes - fixedBytes)) = true
    · rw [if_pos overflow, ih]
      simp only [Bool.and_eq_true, decide_eq_true_eq, FuzzClass.fuzzable, bne_iff_ne, ne_eq,
        UInt64.lt_iff_toNat_lt, room] at overflow
      obtain ⟨fuzzable, beyond⟩ := overflow
      cases kind : c.kind
      · exact absurd kind fuzzable
      · exact (SizedClass.tupleFrom_spoiled _ (.inr (by omega)) _ _).symm
      · exact (SizedClass.tupleFrom_spoiled _ (.inr (by omega)) _ _).symm
      · rfl
    · rw [if_neg overflow]
      simp only [Bool.and_eq_true, decide_eq_true_eq, FuzzClass.fuzzable, bne_iff_ne, ne_eq,
        UInt64.lt_iff_toNat_lt, room, not_and, Nat.not_lt] at overflow
      -- an element that fits adds its bytes without wrapping
      have adds : c.kind ≠ .notFuzzable →
          (fixedBytes + c.minBytes).toNat = fixedBytes.toNat + c.minBytes.toNat := by
        intro fuzzable
        have within := overflow fuzzable
        rw [UInt64.toNat_add, Nat.mod_eq_of_lt]
        simp only [maxBytes, UInt64.reduceToNat] at within fits
        omega
      cases kind : c.kind
      · rfl
      · rw [ih, adds (by simp [kind])]
      · rw [ih, adds (by simp [kind])]
      · exact ih _ _ _

theorem tupleClass_sized (classes : List FuzzClass) :
    (tupleClass classes).sized = SizedClass.tuple (classes.map FuzzClass.sized) :=
  tupleClass_go_sized classes 0 0 false

namespace FuzzClass

@[simp] theorem sized_kind (c : FuzzClass) : c.sized.kind = c.kind := rfl

@[simp] theorem sized_bytes (c : FuzzClass) : c.sized.bytes = c.minBytes.toNat := rfl

@[simp] theorem notFuzzable_sized : notFuzzable.sized = SizedClass.notFuzzable := rfl

@[simp] theorem unencodable_sized : unencodable.sized = SizedClass.unencodable := rfl

/-- An array's test of its element bytes against the largest count divided by its length refuses
exactly the products that have no 64-bit count. -/
theorem arrayBytes_sized (bytes length : UInt64) :
    (if (length != 0 && decide (bytes > maxBytes / length)) = true then unencodable
      else fixed (bytes * length)).sized = SizedClass.fit .fixed (bytes.toNat * length.toNat) := by
  have largest : maxBytes.toNat = 18446744073709551615 := rfl
  by_cases empty : length = 0
  · subst empty
    simp [SizedClass.fit, sized, fixed]
  · have positive : 0 < length.toNat := by
      have nonzero : length.toNat ≠ 0 := fun zero => empty (UInt64.toNat_inj.mp (by rw [zero]; rfl))
      omega
    -- the test, over the naturals: the largest count is below the product
    have test : bytes > maxBytes / length ↔ maxBytes.toNat < bytes.toNat * length.toNat := by
      rw [GT.gt, UInt64.lt_iff_toNat_lt, UInt64.toNat_div, Nat.div_lt_iff_lt_mul positive]
    by_cases beyond : maxBytes.toNat < bytes.toNat * length.toNat
    · have refused : ¬bytes.toNat * length.toNat ≤ maxBytes.toNat := Nat.not_le.mpr beyond
      simp [empty, test.mpr beyond, SizedClass.fit, refused, sized, unencodable,
        SizedClass.unencodable]
    · have kept : ¬bytes > maxBytes / length := fun refused => beyond (test.mp refused)
      have product : (bytes * length).toNat = bytes.toNat * length.toNat := by
        rw [UInt64.toNat_mul, Nat.mod_eq_of_lt (by simp only [Nat.reducePow]; omega)]
      simp [kept, SizedClass.fit, Nat.not_lt.mp beyond, sized, fixed, product]

/-- A tag byte added to a count below the largest one does not wrap. -/
theorem toNat_add_one {bytes : UInt64} (below : bytes.toNat ≠ maxBytes.toNat) :
    (bytes + 1).toNat = bytes.toNat + 1 := by
  have largest : maxBytes.toNat = 18446744073709551615 := rfl
  have := bytes.toNat_lt
  rw [UInt64.toNat_add, UInt64.toNat_one, Nat.mod_eq_of_lt (by simp only [Nat.reducePow]; omega)]

/-- A value with a tag byte, of bytes below the largest count, has the reference count of its
kind. -/
theorem tagged_sized (kind : FuzzKind) {bytes : UInt64} (below : bytes.toNat ≠ maxBytes.toNat) :
    ({ kind, minBytes := bytes + 1, mutable := false } : FuzzClass).sized =
      SizedClass.fit kind (bytes.toNat + 1) := by
  have tagged : bytes.toNat + 1 ≤ maxBytes.toNat := by
    have := toNat_le_maxBytes bytes
    omega
  simp [SizedClass.fit, sized, toNat_add_one below, tagged]

end FuzzClass

theorem primByteSize_le (name : String) : Ty.primByteSize name ≤ 16 := by
  unfold Ty.primByteSize
  split <;> omega

namespace Ty

mutual

/-- A value's class counted in 64 bits is its reference class when no option in the type wraps:
one case per constructor, the sized ones by the tests that keep their counts below 2^64. -/
theorem valueClass_sized : ∀ t : Ty, t.wrapsOption = false → t.valueClass.sized = t.sizedValue
  | .unknown, _ | .ptr _ _, _ | .path _ _ _, _ | .generic _, _ => rfl
  | .str, _ | .string, _ => rfl
  | .prim name, _ => by
    have small : (primByteSize name).toUInt64.toNat = primByteSize name := by
      rw [UInt64.toNat_ofNat']
      exact Nat.mod_eq_of_lt (by have := primByteSize_le name; omega)
    simp only [valueClass, sizedValue]
    split
    · simp [FuzzClass.sized, FuzzClass.fixed, small]
    · rfl
  | .slice elem, noWrap | .vec elem, noWrap => by
    have same := valueClass_sized elem noWrap
    simp only [valueClass, sizedValue, ← same, FuzzClass.sized_kind]
    cases elem.valueClass.kind <;> rfl
  | .array elem length, noWrap => by
    have same := valueClass_sized elem noWrap
    simp only [valueClass, sizedValue, ← same, FuzzClass.sized_kind, FuzzClass.sized_bytes]
    cases elem.valueClass.kind with
    | fixed => exact FuzzClass.arrayBytes_sized _ _
    | _ => rfl
  | .tuple elems, noWrap => by
    simp only [valueClass, sizedValue, tupleClass_sized, valueClasses_sized elems noWrap]
  | .option inner, noWrap => by
    simp only [wrapsOption, Bool.or_eq_false_iff, Bool.and_eq_false_iff, beq_eq_false_iff_ne,
      Bool.or_eq_false_iff] at noWrap
    obtain ⟨innerNoWrap, tagFits⟩ := noWrap
    have same := valueClass_sized inner innerNoWrap
    simp only [valueClass, sizedValue, ← same, FuzzClass.sized_kind, FuzzClass.sized_bytes]
      at tagFits ⊢
    cases kind : inner.valueClass.kind
    · rfl
    · exact FuzzClass.tagged_sized .fixed (by simpa [kind] using tagFits)
    · exact FuzzClass.tagged_sized .variable (by simpa [kind] using tagFits)
    · rfl
  | .ref target _, noWrap => by
    have same := valueClass_sized target noWrap
    simp only [valueClass, sizedValue, ← same, FuzzClass.sized_kind, FuzzClass.fuzzable]
    by_cases made : target.valueClass.kind = .notFuzzable <;> simp [made]

/-- The classes of a list of types, counted in 64 bits, are their reference classes when no option
in them wraps. -/
theorem valueClasses_sized : ∀ ts : List Ty, wrapsOptions ts = false →
    (valueClasses ts).map FuzzClass.sized = sizedValues ts
  | [], _ => rfl
  | t :: ts, noWrap => by
    simp only [wrapsOptions, Bool.or_eq_false_iff] at noWrap
    simp only [valueClasses, sizedValues, List.map_cons, valueClass_sized t noWrap.1,
      valueClasses_sized ts noWrap.2]

end

/-- A reference at the top takes its target's class, with the reference's mutability when the
target is fuzzable, in 64 bits as in the reference. -/
theorem refTarget_sized (target : Ty) (mutable : Bool) (noWrap : target.wrapsOption = false) :
    (if target.valueClass.fuzzable then { target.valueClass with mutable } else
        target.valueClass).sized =
      if target.sizedValue.kind = .notFuzzable then target.sizedValue
      else { target.sizedValue with mutable } := by
  rw [← valueClass_sized target noWrap]
  by_cases made : target.valueClass.kind = .notFuzzable
  · simp [made, FuzzClass.fuzzable]
  · simp [made, FuzzClass.fuzzable]
    rfl

/-- A parameter's class counted in 64 bits is its reference class whenever no option in the type
it takes after substitution holds a value of 2^64 - 1 bytes. -/
theorem fuzzClass_sized (bindings : Bindings) (t : Ty)
    (noWrap : ∀ t', t.subst bindings = some t' → t'.wrapsOption = false) :
    (t.fuzzClass bindings).sized = t.sizedClass bindings := by
  unfold fuzzClass sizedClass
  cases substituted : t.subst bindings with
  | none => rfl
  | some concrete =>
    have concreteNoWrap := noWrap concrete substituted
    -- a reference at the top is looked through once; every other type is a value
    cases concrete
    case ref target mutable =>
      have targetNoWrap : target.wrapsOption = false := concreteNoWrap
      cases target
      case ref => rfl
      all_goals exact refTarget_sized _ mutable targetNoWrap
    all_goals exact valueClass_sized _ concreteNoWrap

end Ty

/-- A mutable reference to a tuple of an optional array of a bound generic and a string. -/
def optionalArrayTuple : Ty :=
  .ref (.tuple [.option (.array (.generic "T") 3), .string]) true

theorem optionalArrayTuple_fuzzClass_sized :
    (∀ t', optionalArrayTuple.subst [("T", .prim "u32")] = some t' → t'.wrapsOption = false) ∧
      (optionalArrayTuple.fuzzClass [("T", .prim "u32")]).sized =
        optionalArrayTuple.sizedClass [("T", .prim "u32")] := by
  have noWrap : ∀ t', optionalArrayTuple.subst [("T", .prim "u32")] = some t' →
      t'.wrapsOption = false := by
    intro t' substituted
    have bound : optionalArrayTuple.subst [("T", .prim "u32")] =
        some (.ref (.tuple [.option (.array (.prim "u32") 3), .string]) true) := rfl
    rw [bound, Option.some.injEq] at substituted
    subst substituted
    decide
  exact ⟨noWrap, Ty.fuzzClass_sized _ _ noWrap⟩

/-- `Option<[u8; 2^64 - 1]>`: the array holds the largest count of bytes, and the option's tag byte
wraps the count to none, where the reference finds no 64-bit count. -/
theorem optionOfLargestArray_wraps :
    (Ty.option (.array (.prim "u8") maxBytes)).fuzzClass [] = FuzzClass.fixed 0 ∧
      (Ty.option (.array (.prim "u8") maxBytes)).sizedClass [] = SizedClass.unencodable := by
  constructor <;> decide

end DriverSynth
