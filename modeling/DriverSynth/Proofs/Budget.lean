import DriverSynth.Sequence.Budget
import DriverSynth.Proofs.Replay

/-! # What a byte budget asks of an input

`Budget.of` adds up, in 64-bit arithmetic, the sizes of the fixed slots and counts the variable
ones; `Budget.partition` accepts an input that holds the fixed slots. Admission refuses a second
variable slot, so for an admitted sequence the budget asks for exactly the bytes of the fixed
slots, while these add up to fewer than 2^64 (`Api.replay?_budget`). It does not ask for the least
size of the variable slot: an empty input is usable for a `(u32, String)` parameter
(`tupleCatalog_budget_ignores_least_size`).
-/

namespace DriverSynth

/-- The bytes that the fixed slots of a list take, over unbounded naturals. -/
def fixedBytes : List Slot → Nat
  | [] => 0
  | slot :: rest => (if slot.kind = .fixed then slot.minBytes.toNat else 0) + fixedBytes rest

theorem fixedBytes_append (first rest : List Slot) :
    fixedBytes (first ++ rest) = fixedBytes first + fixedBytes rest := by
  induction first with
  | nil => simp [fixedBytes]
  | cons slot first ih =>
    simp only [List.cons_append, fixedBytes, ih]
    omega

namespace Sequence

/-- Every slot of a sequence is decoded from a fixed or a variable number of bytes. -/
def Decodable (s : Sequence) : Prop :=
  ∀ slot ∈ s.slots.toList, slot.kind = .fixed ∨ slot.kind = .variable

theorem decodable_empty : ({} : Sequence).Decodable := by
  simp [Decodable]

end Sequence

namespace Budget

/-- What the budget's walk knows after the first `k` slots: the 64-bit sum of the fixed ones,
the number of variable ones, and, while there is at most one, which one it is. -/
structure Scan (s : Sequence) (k : Nat) (total : UInt64) (count : Nat) (last : Option Nat) :
    Prop where
  total_eq : total.toNat = fixedBytes (s.slots.toList.take k) % UInt64.size
  count_eq : count = (s.slots.toList.take k).countP (·.kind == .variable)
  none_of_zero : count = 0 → last = none
  some_iff : count = 1 → ∀ i, last = some i ↔
    i < k ∧ ∃ slot, s.slots[i]? = some slot ∧ slot.kind = .variable

-- The slots up to `k + 1` are those up to `k` and the one at `k`.
private theorem take_succ_slots {s : Sequence} {k : Nat} {slot : Slot}
    (at_k : s.slots[k]? = some slot) :
    s.slots.toList.take (k + 1) = s.slots.toList.take k ++ [slot] := by
  rw [List.take_add_one, Array.getElem?_toList, at_k]
  rfl

theorem scan_start (s : Sequence) : Scan s 0 0 0 none where
  total_eq := by simp [fixedBytes]
  count_eq := by simp
  none_of_zero _ := rfl
  some_iff one := absurd one (by decide)

-- The slot at `k` is one of the slots.
private theorem mem_of_getElem? {s : Sequence} {k : Nat} {slot : Slot}
    (at_k : s.slots[k]? = some slot) : slot ∈ s.slots.toList := by
  obtain ⟨bound, rfl⟩ := Array.getElem?_eq_some_iff.mp at_k
  exact Array.getElem_mem_toList bound

/-- A variable slot is counted and remembered; when it is the first, it is the only one so far. -/
theorem Scan.push_variable {s : Sequence} {k : Nat} {slot : Slot}
    (at_k : s.slots[k]? = some slot) (varying : slot.kind = .variable) {total : UInt64}
    {count : Nat} {last : Option Nat} (scan : Scan s k total count last) :
    Scan s (k + 1) total (count + 1) (some k) := by
  refine ⟨?_, ?_, fun zero => absurd zero (Nat.succ_ne_zero _), fun one i => ?_⟩
  · rw [take_succ_slots at_k, fixedBytes_append, scan.total_eq]
    simp [fixedBytes, varying]
  · rw [take_succ_slots at_k, List.countP_append, scan.count_eq]
    simp [varying]
  · have noneYet : count = 0 := by omega
    constructor
    · rintro ⟨⟩
      exact ⟨Nat.lt_succ_self k, slot, at_k, varying⟩
    · rintro ⟨below, other, found, otherVarying⟩
      rcases Nat.lt_succ_iff_lt_or_eq.mp below with earlier | rfl
      · -- no variable slot comes before the first one
        have member : other ∈ s.slots.toList.take k := by
          obtain ⟨inBounds, rfl⟩ := Array.getElem?_eq_some_iff.mp found
          rw [List.mem_take_iff_getElem]
          refine ⟨i, ?_, by simp⟩
          simp only [Array.length_toList]
          omega
        have counted := scan.count_eq
        rw [noneYet] at counted
        have := (List.countP_eq_zero.mp counted.symm) other member
        simp [otherVarying] at this
      · rfl

/-- A fixed slot is added up in 64 bits, and the variable slots so far stay as they were. -/
theorem Scan.push_fixed {s : Sequence} {k : Nat} {slot : Slot} (at_k : s.slots[k]? = some slot)
    (fixed : slot.kind = .fixed) {total : UInt64} {count : Nat} {last : Option Nat}
    (scan : Scan s k total count last) :
    Scan s (k + 1) (total + slot.minBytes) count last := by
  have varying : slot.kind ≠ .variable := by simp [fixed]
  refine ⟨?_, ?_, scan.none_of_zero, fun one i => ?_⟩
  · rw [take_succ_slots at_k, fixedBytes_append, UInt64.toNat_add, scan.total_eq]
    simp only [fixedBytes, fixed, ite_true, Nat.add_zero, UInt64.size, Nat.reducePow,
      Nat.mod_add_mod]
  · rw [take_succ_slots at_k, List.countP_append, scan.count_eq]
    simp [varying]
  · rw [scan.some_iff one i]
    constructor
    · rintro ⟨below, found⟩
      exact ⟨Nat.lt_succ_of_lt below, found⟩
    · rintro ⟨below, other, found, otherVarying⟩
      rcases Nat.lt_succ_iff_lt_or_eq.mp below with earlier | rfl
      · exact ⟨earlier, other, found, otherVarying⟩
      · rw [at_k] at found
        cases found
        exact absurd otherVarying varying

/-- The budget of a sequence whose slots are all fixed or variable: the sizes of the fixed slots
added up in 64 bits, the number of variable slots, and the variable slot when there is only one. -/
theorem of_spec {s : Sequence} (decodable : s.Decodable) :
    (Budget.of s).fixedLength.toNat = fixedBytes s.slots.toList % UInt64.size ∧
      (Budget.of s).dynamicCount = s.varCount ∧
      ∀ i, (Budget.of s).dynamicSlot = some i ↔
        s.varCount = 1 ∧ ∃ slot, s.slots[i]? = some slot ∧ slot.kind = .variable := by
  unfold Budget.of
  split
  rename_i total count last run
  -- the walk over every slot, one step per slot
  have scan : Scan s s.slots.size total count last := by
    refine foldl_range_invariant (fun k st => Scan s k st.1 st.2.1 st.2.2) (scan_start s) ?_ run
    rintro k ⟨total', count', last'⟩ bound scan
    have at_k : s.slots[k]? = some (s.slots.getD k default) := by
      rw [Array.getD_eq_getD_getElem?, Array.getElem?_eq_getElem bound, Option.getD_some]
    by_cases varying : (s.slots.getD k default).kind = .variable
    · simp only [varying, beq_self_eq_true, ite_true]
      exact scan.push_variable at_k varying
    · have fixed := (decodable _ (mem_of_getElem? at_k)).resolve_right varying
      simp only [fixed]
      exact scan.push_fixed at_k fixed
  have all : s.slots.toList.take s.slots.size = s.slots.toList :=
    List.take_of_length_le (by simp)
  refine ⟨by rw [scan.total_eq, all], by rw [scan.count_eq, all]; rfl, fun i => ?_⟩
  have counted : count = s.varCount := by rw [scan.count_eq, all]; rfl
  dsimp only
  by_cases one : count = 1
  · rw [if_pos one, scan.some_iff one i, ← counted]
    constructor
    · rintro ⟨-, found⟩
      exact ⟨one, found⟩
    · rintro ⟨-, slot, found, varying⟩
      exact ⟨(Array.getElem?_eq_some_iff.mp found).1, slot, found, varying⟩
  · rw [if_neg one, ← counted]
    simp [one]

/-- An input is usable when it holds the fixed bytes; it keeps them, and shares the rest among
the variable slots. -/
theorem partition_usable (b : Budget) (n : UInt64) :
    (b.partition n).usable = true ↔ b.fixedLength ≤ n := by
  unfold partition
  split
  · rename_i short
    simp [UInt64.not_le.mpr short]
  · rename_i long
    simpa using UInt64.not_lt.mp long

theorem partition_fixedLength (b : Budget) (n : UInt64) :
    (b.partition n).fixedLength = b.fixedLength := by
  unfold partition
  split <;> rfl

/-- With one variable slot, a usable input gives it every byte past the fixed ones. -/
theorem partition_chunk_one {b : Budget} (one : b.dynamicCount = 1) {n : UInt64}
    (long : b.fixedLength ≤ n) : (b.partition n).chunk = n - b.fixedLength := by
  unfold partition
  rw [if_neg (UInt64.not_lt.mpr long)]
  simp [one]

/-- With no variable slot, the chunk is empty. -/
theorem partition_chunk_zero {b : Budget} (zero : b.dynamicCount = 0) (n : UInt64) :
    (b.partition n).chunk = 0 := by
  simp only [partition, zero, ↓reduceIte]
  split <;> rfl

end Budget

namespace Api

variable {api : Api}

/-- A property that admission keeps holds of every sequence that admitting functions one after
the other builds from the empty sequence. -/
theorem AdmitClosed.replay? {P : Sequence → Prop} (closed : api.AdmitClosed P) {fns : List Nat}
    {s : Sequence} (replayed : api.replay? fns = some s) : P s := by
  -- admitting functions to any sequence with the property keeps it
  suffices going : ∀ (fns : List Nat) (q : Sequence), P q →
      fns.foldlM (fun q f => api.extend? 0 q f) q = some s → P s from
    going fns {} closed.empty replayed
  intro fns
  induction fns with
  | nil =>
    intro q holds run
    cases run
    exact holds
  | cons fn rest ih =>
    intro q holds run
    simp only [List.foldlM_cons, Option.bind_eq_bind] at run
    obtain ⟨q', extended, later⟩ := Option.bind_eq_some_iff.mp run
    exact ih q' (closed.extend holds extended) later

/-- Binding a parameter adds at most a slot, of fixed or variable length. -/
theorem bindParam_decodable {base : Sequence} {fn k : Nat} {d d' : Draft}
    (decodable : d.seq.Decodable) (bound : api.bindParam base fn d k = some d') :
    d'.seq.Decodable := by
  rcases bindParam_eq_some bound with ⟨kind, rfl⟩ | ⟨j, id, -, rfl⟩
  · intro slot member
    simp only [Sequence.addSlot_slots, Array.toList_push, List.mem_append,
      List.mem_singleton] at member
    rcases member with old | rfl
    · exact decodable slot old
    · exact kind
  · dsimp only
    split <;> exact decodable

/-- Admitting a call keeps every slot fixed or variable, and leaves at most one variable slot: a
call with parameters is refused when it would make a second one, and a call without parameters
adds no slot. -/
theorem extend?_decodable {s s' : Sequence} (decodable : s.Decodable) (single : s.varCount ≤ 1)
    {stamp fn : Nat} (extended : api.extend? stamp s fn = some s') :
    s'.Decodable ∧ s'.varCount ≤ 1 := by
  unfold extend? at extended
  dsimp only at extended
  split at extended
  · cases extended
  -- the unsafe mark and the trait leave the slots as they were
  split at extended
  · cases extended
    split <;> split <;> exact ⟨decodable, single⟩
  · split at extended
    · cases extended
    · rename_i d folded
      have drafted : d.seq.Decodable := by
        refine foldlM_range_invariant (fun _ d => d.seq.Decodable) ?_
          (fun _ _ _ _ holds step => bindParam_decodable holds step) folded
        split <;> split <;> exact decodable
      split at extended
      · cases extended
      · rename_i room
        cases extended
        -- the uses and the call leave the slots of the draft as they are
        refine ⟨fun slot member => drafted slot ?_, by omega⟩
        rwa [Sequence.append_slots, foldl_use_slots] at member

/-- Every sequence that admission builds reads each slot from fixed or variable bytes and has at
most one variable slot. -/
theorem decodable_admitClosed : api.AdmitClosed fun s => s.Decodable ∧ s.varCount ≤ 1 where
  empty := ⟨Sequence.decodable_empty, Nat.zero_le 1⟩
  extend := fun held extended => extend?_decodable held.1 held.2 extended

/-- The budget of an admitted sequence asks an input for exactly the bytes of its fixed slots,
not for the least size of its variable slot, of which there is at most one and which gets the
rest. -/
theorem replay?_budget {fns : List Nat} {s : Sequence} (admitted : api.replay? fns = some s)
    (fits : fixedBytes s.slots.toList < UInt64.size) (n : UInt64) :
    (((Budget.of s).partition n).usable = true ↔ fixedBytes s.slots.toList ≤ n.toNat) ∧
      (Budget.of s).fixedLength.toNat = fixedBytes s.slots.toList ∧
      ((Budget.of s).partition n).fixedLength = (Budget.of s).fixedLength ∧
      (Budget.of s).dynamicCount = s.varCount ∧ s.varCount ≤ 1 ∧
      (∀ i, (Budget.of s).dynamicSlot = some i ↔
        s.varCount = 1 ∧ ∃ slot, s.slots[i]? = some slot ∧ slot.kind = .variable) ∧
      (((Budget.of s).partition n).usable = true →
        (Budget.of s).fixedLength.toNat +
            (Budget.of s).dynamicCount * ((Budget.of s).partition n).chunk.toNat ≤ n.toNat ∧
          ((Budget.of s).dynamicCount = 1 →
            ((Budget.of s).partition n).chunk = n - (Budget.of s).fixedLength)) := by
  obtain ⟨decodable, single⟩ := decodable_admitClosed.replay? admitted
  obtain ⟨total, count, slotIff⟩ := Budget.of_spec decodable
  -- without overflow the 64-bit sum is the sum
  have exact : (Budget.of s).fixedLength.toNat = fixedBytes s.slots.toList := by
    rw [total, Nat.mod_eq_of_lt fits]
  have usable : ((Budget.of s).partition n).usable = true ↔
      fixedBytes s.slots.toList ≤ n.toNat := by
    rw [Budget.partition_usable, UInt64.le_iff_toNat_le, exact]
  refine ⟨usable, exact, Budget.partition_fixedLength _ _, count, single, slotIff,
    fun holds => ?_⟩
  have long : (Budget.of s).fixedLength ≤ n := (Budget.partition_usable _ _).mp holds
  have atMostOne : (Budget.of s).dynamicCount ≤ 1 := by
    rw [count]
    exact single
  rcases Nat.le_one_iff_eq_zero_or_eq_one.mp atMostOne with zero | one
  · -- no variable slot: nothing is shared out
    rw [Budget.partition_chunk_zero zero, zero]
    refine ⟨by simpa using UInt64.le_iff_toNat_le.mp long, fun one => absurd one (by decide)⟩
  · -- one variable slot: it takes every byte past the fixed ones
    rw [Budget.partition_chunk_one one long, one, UInt64.toNat_sub_of_le _ _ long]
    have := UInt64.le_iff_toNat_le.mp long
    exact ⟨by omega, fun _ => rfl⟩

end Api

/-- One function, taking a `u32`, a string slice and three bytes. -/
def mixedCatalog : Catalog where
  entries := #[⟨{ name := "g", params := [.prim "u32", .ref .str false, .array (.prim "u8") 3] },
    false, false⟩]

/-- The call of that function that admission builds. -/
def mixedCall : Sequence := ((Api.ofCatalog mixedCatalog).replay? [0]).getD {}

/-- Its fixed slots take seven bytes in all, and an input of ten bytes holds them. -/
theorem mixedCall_replay?_budget :
    (Api.ofCatalog mixedCatalog).replay? [0] = some mixedCall ∧
      fixedBytes mixedCall.slots.toList = 7 ∧
      (((Budget.of mixedCall).partition 10).usable = true ↔
        fixedBytes mixedCall.slots.toList ≤ 10) := by
  have replayed : (Api.ofCatalog mixedCatalog).replay? [0] = some mixedCall := rfl
  have bytes : fixedBytes mixedCall.slots.toList = 7 := rfl
  exact ⟨replayed, bytes, (Api.replay?_budget replayed (by rw [bytes]; decide) 10).1⟩

/-- One function, taking a `(u32, String)`. -/
def tupleCatalog : Catalog where
  entries := #[⟨{ name := "f", params := [.tuple [.prim "u32", .string]] }, false, false⟩]

/-- Admitting that function makes one variable slot of at least four bytes, yet the budget of
the sequence finds an empty input usable. -/
theorem tupleCatalog_budget_ignores_least_size :
    ∃ s, (Api.ofCatalog tupleCatalog).replay? [0] = some s ∧
      s.slots.toList.map (fun slot => (slot.kind, slot.minBytes)) = [(.variable, 4)] ∧
      ((Budget.of s).partition 0).usable = true :=
  ⟨_, rfl, rfl, rfl⟩

end DriverSynth
