import DriverSynth.Sequence.Basic

/-! # Byte budgets

A fuzz input is cut into the slots of a sequence: every slot of fixed size takes its bytes, and
the slots of variable length share the rest equally. The budget of a sequence is the sum of the
fixed sizes, in 64-bit arithmetic, with the number of variable slots and, when there is exactly
one, its index.
-/

namespace DriverSynth

/-- What a sequence asks of a fuzz input. -/
structure Budget where
  fixedLength : UInt64
  dynamicCount : Nat
  dynamicSlot : Option Nat
deriving Repr, DecidableEq, Inhabited

/-- How an input of some length is cut: whether it holds the fixed slots, their bytes, and the
bytes each variable slot gets. -/
structure Partition where
  usable : Bool
  fixedLength : UInt64
  chunk : UInt64
deriving Repr, DecidableEq, Inhabited

namespace Budget

/-- The budget of a sequence. -/
def of (s : Sequence) : Budget :=
  let (fixedLength, count, last) := (List.range s.slots.size).foldl (fun (total, count, last) i =>
    let slot := s.slots.getD i default
    if slot.kind == .variable then (total, count + 1, some i)
    else (total + slot.minBytes, count, last)) ((0 : UInt64), 0, (none : Option Nat))
  ⟨fixedLength, count, if count = 1 then last else none⟩

/-- The shortest input that holds every fixed slot. -/
def minInput (b : Budget) : UInt64 := b.fixedLength

/-- How an input of `length` bytes is cut. -/
def partition (b : Budget) (length : UInt64) : Partition :=
  if length < b.fixedLength then ⟨false, b.fixedLength, 0⟩
  else ⟨true, b.fixedLength,
    if b.dynamicCount = 0 then 0 else (length - b.fixedLength) / b.dynamicCount.toUInt64⟩

end Budget

end DriverSynth
