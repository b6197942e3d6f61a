import DriverSynth.Sequence.Admit

/-! # The borrow discipline of call sequences

A sequence keeps Rust's borrow rules (`Sequence.WellFormed`) when every result a call takes comes
from an earlier call along a graph edge in the edge's mode, every slot is read by exactly one
binding, a moved result is taken by nothing else, within a call an exclusive borrow is taken once
and a shared or copied result is neither moved nor borrowed exclusively, and the usage adds up the
bindings. The constructions keep a stronger invariant (`Sequence.Disciplined`), one rule per call
(`CallFits`), from which `Disciplined.wellFormed` derives the discipline.
-/

namespace DriverSynth

namespace Source

/-- The earlier call whose result a binding takes, with the mode. -/
def use? : Source → Option (Nat × Access)
  | .result call mode _ => some (call, mode)
  | .slot _ _ => none

/-- The slot a binding reads. -/
def slot? : Source → Option Nat
  | .slot index _ => some index
  | .result _ _ _ => none

/-- The mode in which a binding takes the result of call `j`. -/
def modeOn? (j : Nat) : Source → Option Access
  | .result call mode _ => if call = j then some mode else none
  | .slot _ _ => none

end Source

/-- Modes that leave a value usable again in the same call: a copy or a shared borrow. -/
def Access.Shareable (mode : Access) : Prop := mode = .copy ∨ mode = .shared

namespace Call

/-- The results the call takes, with their modes, in parameter order. -/
def uses (c : Call) : List (Nat × Access) := c.args.filterMap Source.use?

/-- The slots the call reads, in parameter order. -/
def slots (c : Call) : List Nat := c.args.filterMap Source.slot?

/-- The modes in which the call takes the result of call `j`, in parameter order. -/
def modesOn (c : Call) (j : Nat) : List Access := c.args.filterMap (Source.modeOn? j)

end Call

/-- What a list of uses in order makes of an unused result. -/
def Usage.summary (modes : List Access) : Usage := modes.foldl Usage.use {}

/-- The modes in which calls take the result of call `j`, in call and parameter order. -/
def modesOf (calls : List Call) (j : Nat) : List Access := calls.flatMap (·.modesOn j)

/-- Whether one of the calls moves the result of call `j`. -/
def Moves (calls : List Call) (j : Nat) : Prop := ∃ c ∈ calls, (j, Access.move) ∈ c.uses

/-- A call fits after `calls` when each result it takes is an earlier one, not moved before, passed
along a graph edge into that parameter in the edge's mode, and a result it takes twice is only
shared or copied. -/
structure CallFits (g : Graph) (calls : List Call) (call : Call) : Prop where
  result_edge : ∀ k j mode edge, call.args[k]? = some (.result j mode edge) →
    j < calls.length ∧ ∃ id, edge = some id ∧ id < g.numEdges ∧
      g.edge id = ⟨(calls.getD j default).fn, call.fn, k, (g.edge id).link⟩ ∧
      (g.edge id).link.mode = mode
  not_moved : ∀ j mode, (j, mode) ∈ call.uses → ¬ Moves calls j
  shared_twice : call.args.Pairwise fun a b =>
    ∀ j mode mode', a.use? = some (j, mode) → b.use? = some (j, mode') →
      mode.Shareable ∧ mode'.Shareable

/-- Calls of which each fits after those before it. -/
inductive Admitted (g : Graph) : List Call → Prop
  | nil : Admitted g []
  | snoc {calls : List Call} {call : Call} :
    Admitted g calls → CallFits g calls call → Admitted g (calls ++ [call])

namespace Sequence

/-- The binding of parameter `k` of call `i`. -/
def binding? (s : Sequence) (i k : Nat) : Option Source := s.calls[i]?.bind (·.args[k]?)

/-- The function of call `i`. -/
def fnAt (s : Sequence) (i : Nat) : Nat := (s.calls.getD i default).fn

/-- The slots the bindings read, in call and parameter order. -/
def slotRefs (s : Sequence) : List Nat := s.calls.toList.flatMap Call.slots

/-- The borrow discipline of a sequence against a graph. -/
structure WellFormed (g : Graph) (s : Sequence) : Prop where
  /-- A result comes from an earlier call along an edge into this parameter, in its mode. -/
  result_edge : ∀ i k j mode edge, s.binding? i k = some (.result j mode edge) →
    j < i ∧ ∃ id, edge = some id ∧ id < g.numEdges ∧
      g.edge id = ⟨s.fnAt j, s.fnAt i, k, (g.edge id).link⟩ ∧ (g.edge id).link.mode = mode
  /-- A slot binding names a slot of the sequence. -/
  slot_bound : ∀ i k t mode, s.binding? i k = some (.slot t mode) → t < s.slots.size
  /-- Each slot is read by exactly one binding. -/
  slot_once : ∀ t < s.slots.size, s.slotRefs.count t = 1
  /-- Each slot has a fixed or a variable size. -/
  slot_kind : ∀ slot ∈ s.slots.toList, slot.kind = .fixed ∨ slot.kind = .variable
  /-- Nothing else takes a moved result, in the same call or later. -/
  moved_alone : ∀ i k j edge, s.binding? i k = some (.result j .move edge) →
    ∀ i' k' src, s.binding? i' k' = some src → (i < i' ∨ i' = i ∧ k' ≠ k) →
      src.modeOn? j = none
  /-- Nothing else in the call takes an exclusively borrowed result. -/
  exclusive_alone : ∀ i k j edge, s.binding? i k = some (.result j .exclusive edge) →
    ∀ k' src, s.binding? i k' = some src → k' ≠ k → src.modeOn? j = none
  /-- A shared or copied result is neither moved nor exclusively borrowed in the same call. -/
  shared_kept : ∀ i k j mode edge, s.binding? i k = some (.result j mode edge) →
    mode.Shareable → ∀ k' src mode', s.binding? i k' = some src → src.modeOn? j = some mode' →
      mode' ≠ .move ∧ mode' ≠ .exclusive
  /-- There is one usage per call. -/
  usage_size : s.usage.size = s.size
  /-- The usage of a result sums up the bindings that take it, in order. -/
  usage_summary : ∀ j < s.size, s.usage.getD j default = Usage.summary (modesOf s.calls.toList j)

/-- The invariant the constructions keep: every call fits after those before it, slots are
read in the order they were made, and usage is the fold of the bindings. -/
structure Disciplined (g : Graph) (s : Sequence) : Prop where
  admitted : Admitted g s.calls.toList
  slot_refs : s.slotRefs = List.range s.slots.size
  slot_kind : ∀ slot ∈ s.slots.toList, slot.kind = .fixed ∨ slot.kind = .variable
  usage_eq : s.usage.toList =
    (List.range s.size).map fun j => Usage.summary (modesOf s.calls.toList j)

end Sequence

end DriverSynth

namespace DriverSynth

theorem Usage.summary_append (first rest : List Access) :
    Usage.summary (first ++ rest) = rest.foldl Usage.use (Usage.summary first) := by
  simp [summary, List.foldl_append]

/-- A result whose last use moved it is moved. -/
theorem Usage.summary_hold_move (first : List Access) :
    (Usage.summary (first ++ [.move])).hold = .moved := by
  simp [summary_append, Usage.use]

namespace Source

theorem modeOn?_eq_some {src : Source} {j : Nat} {mode : Access} :
    src.modeOn? j = some mode ↔ src.use? = some (j, mode) := by
  cases src with
  | slot index m => simp [modeOn?, use?]
  | result call m edge =>
    by_cases same : call = j
    · subst same
      simp [modeOn?, use?]
    · simp [modeOn?, use?, same]

theorem use?_eq_some {src : Source} {j : Nat} {mode : Access} :
    src.use? = some (j, mode) ↔ ∃ edge, src = .result j mode edge := by
  cases src with
  | slot index m => simp [use?]
  | result call m edge => simp [use?]

end Source

namespace Call

theorem mem_modesOn {c : Call} {j : Nat} {mode : Access} :
    mode ∈ c.modesOn j ↔ (j, mode) ∈ c.uses := by
  simp [modesOn, uses, Source.modeOn?_eq_some]

end Call

-- A list of modes that pairwise are shareable holds a mode that is not only by itself.
private theorem eq_singleton_of_pairwise_shareable {modes : List Access} {mode : Access}
    (pairs : modes.Pairwise fun a b => a.Shareable ∧ b.Shareable) (member : mode ∈ modes)
    (alone : ¬ mode.Shareable) : modes = [mode] := by
  cases modes with
  | nil => cases member
  | cons first rest =>
    rw [List.pairwise_cons] at pairs
    cases rest with
    | nil => simp_all
    | cons second more =>
      have both := pairs.1 second (List.mem_cons_self ..)
      rcases List.mem_cons.mp member with rfl | later
      · exact absurd both.1 alone
      · rcases List.mem_cons.mp later with rfl | later
        · exact absurd both.2 alone
        · exact absurd (pairs.1 mode (List.mem_cons_of_mem _ later)).2 alone

namespace CallFits

variable {g : Graph} {calls : List Call} {call : Call}

/-- A call takes only results of calls before it. -/
theorem use_lt (fits : CallFits g calls call) {j : Nat} {mode : Access}
    (member : (j, mode) ∈ call.uses) : j < calls.length := by
  obtain ⟨src, present, used⟩ := List.mem_filterMap.mp member
  obtain ⟨edge, rfl⟩ := Source.use?_eq_some.mp used
  obtain ⟨k, found⟩ := List.mem_iff_getElem?.mp present
  exact (fits.result_edge k j mode edge found).1

/-- The modes in which a fitting call takes one result are shareable, unless there is one. -/
theorem modesOn_pairwise (fits : CallFits g calls call) (j : Nat) :
    (call.modesOn j).Pairwise fun a b => a.Shareable ∧ b.Shareable := by
  unfold Call.modesOn
  rw [List.pairwise_filterMap]
  refine fits.shared_twice.imp ?_
  intro a b both mode taken mode' taken'
  exact both j mode mode' (Source.modeOn?_eq_some.mp taken) (Source.modeOn?_eq_some.mp taken')

end CallFits

theorem modesOf_append (first rest : List Call) (j : Nat) :
    modesOf (first ++ rest) j = modesOf first j ++ modesOf rest j := by
  simp [modesOf]

theorem modesOf_singleton (call : Call) (j : Nat) : modesOf [call] j = call.modesOn j := by
  simp [modesOf]

namespace Admitted

variable {g : Graph}

/-- Each call of an admitted list fits after the calls before it. -/
theorem fits {calls : List Call} (admitted : Admitted g calls) :
    ∀ i (bound : i < calls.length), CallFits g (calls.take i) calls[i] := by
  induction admitted with
  | nil => intro i bound; cases bound
  | @snoc calls call _ fits ih =>
    intro i bound
    rw [List.length_append, List.length_singleton] at bound
    by_cases before : i < calls.length
    · rw [List.take_append_of_le_length (Nat.le_of_lt before), List.getElem_append_left before]
      exact ih i before
    · have last : i = calls.length := by omega
      subst last
      rw [List.take_left', List.getElem_append_right (Nat.le_refl _)]
      · simpa using fits
      · rfl

/-- No call of an admitted list takes the result of a call at or past its end. -/
theorem modesOf_eq_nil {calls : List Call} (admitted : Admitted g calls) {j : Nat}
    (past : calls.length ≤ j) : modesOf calls j = [] := by
  induction admitted with
  | nil => rfl
  | @snoc calls call _ fits ih =>
    rw [List.length_append] at past
    rw [modesOf_append, ih (by omega), List.nil_append, modesOf_singleton,
      List.eq_nil_iff_forall_not_mem]
    intro mode member
    have := fits.use_lt (Call.mem_modesOn.mp member)
    omega

/-- A moved result is taken last by the move. -/
theorem modesOf_moved {calls : List Call} (admitted : Admitted g calls) {j : Nat}
    (moved : Moves calls j) : ∃ first, modesOf calls j = first ++ [.move] := by
  induction admitted with
  | nil => obtain ⟨c, member, -⟩ := moved; cases member
  | @snoc calls call _ fits ih =>
    rw [modesOf_append, modesOf_singleton]
    by_cases before : Moves calls j
    · -- the call after a move does not take the result at all
      have none : call.modesOn j = [] := by
        rw [List.eq_nil_iff_forall_not_mem]
        intro mode member
        exact fits.not_moved j mode (Call.mem_modesOn.mp member) before
      obtain ⟨first, same⟩ := ih before
      exact ⟨first, by rw [none, List.append_nil]; exact same⟩
    · obtain ⟨c, member, taken⟩ := moved
      rcases List.mem_append.mp member with earlier | last
      · exact absurd ⟨c, earlier, taken⟩ before
      · rw [List.mem_singleton.mp last] at taken
        have alone := eq_singleton_of_pairwise_shareable (fits.modesOn_pairwise j)
          (Call.mem_modesOn.mpr taken) (by simp [Access.Shareable])
        exact ⟨modesOf calls j, by rw [alone]⟩

end Admitted

-- Two bindings of one call at different positions are related one way or the other.
private theorem pairwise_at {α : Type} {R : α → α → Prop} {l : List α} (pairs : l.Pairwise R)
    {k k' : Nat} {a b : α} (ne : k ≠ k') (first : l[k]? = some a) (second : l[k']? = some b) :
    R a b ∨ R b a := by
  obtain ⟨boundA, rfl⟩ := List.getElem?_eq_some_iff.mp first
  obtain ⟨boundB, rfl⟩ := List.getElem?_eq_some_iff.mp second
  rw [List.pairwise_iff_getElem] at pairs
  rcases Nat.lt_or_gt_of_ne ne with lt | gt
  · exact Or.inl (pairs k k' boundA boundB lt)
  · exact Or.inr (pairs k' k boundB boundA gt)

namespace Admitted

variable {g : Graph}

/-- A call of an admitted list takes only results of calls of the list. -/
theorem use_lt {calls : List Call} (admitted : Admitted g calls) {c : Call} (member : c ∈ calls)
    {j : Nat} {mode : Access} (used : (j, mode) ∈ c.uses) : j < calls.length := by
  obtain ⟨i, bound, rfl⟩ := List.mem_iff_getElem.mp member
  have := (admitted.fits i bound).use_lt used
  rw [List.length_take] at this
  omega

end Admitted

namespace Sequence

variable {g : Graph} {s : Sequence}

theorem binding?_eq_some {i k : Nat} {src : Source} :
    s.binding? i k = some src ↔
      ∃ bound : i < s.calls.toList.length, s.calls.toList[i].args[k]? = some src := by
  simp only [binding?, Option.bind_eq_some_iff, Array.length_toList, Array.getElem_toList]
  constructor
  · rintro ⟨c, found, arg⟩
    obtain ⟨bound, rfl⟩ := Array.getElem?_eq_some_iff.mp found
    exact ⟨bound, arg⟩
  · rintro ⟨bound, arg⟩
    exact ⟨_, Array.getElem?_eq_getElem bound, arg⟩

@[simp] theorem coverEdge_calls (s : Sequence) (e : Nat) : (s.coverEdge e).calls = s.calls := rfl
@[simp] theorem coverEdge_slots (s : Sequence) (e : Nat) : (s.coverEdge e).slots = s.slots := rfl
@[simp] theorem coverEdge_usage (s : Sequence) (e : Nat) : (s.coverEdge e).usage = s.usage := rfl
@[simp] theorem markUnsafe_calls (s : Sequence) : s.markUnsafe.calls = s.calls := rfl
@[simp] theorem markUnsafe_slots (s : Sequence) : s.markUnsafe.slots = s.slots := rfl
@[simp] theorem markUnsafe_usage (s : Sequence) : s.markUnsafe.usage = s.usage := rfl
@[simp] theorem addTrait_calls (s : Sequence) (t : String) : (s.addTrait t).calls = s.calls := rfl
@[simp] theorem addTrait_slots (s : Sequence) (t : String) : (s.addTrait t).slots = s.slots := rfl
@[simp] theorem addTrait_usage (s : Sequence) (t : String) : (s.addTrait t).usage = s.usage := rfl
@[simp] theorem addSlot_calls (s : Sequence) (slot : Slot) : (s.addSlot slot).calls = s.calls := rfl
@[simp] theorem addSlot_slots (s : Sequence) (slot : Slot) :
    (s.addSlot slot).slots = s.slots.push slot := rfl
@[simp] theorem addSlot_usage (s : Sequence) (slot : Slot) : (s.addSlot slot).usage = s.usage := rfl
@[simp] theorem use_calls (s : Sequence) (i : Nat) (mode : Access) :
    (s.use i mode).calls = s.calls := rfl
@[simp] theorem use_slots (s : Sequence) (i : Nat) (mode : Access) :
    (s.use i mode).slots = s.slots := rfl
@[simp] theorem use_usage (s : Sequence) (i : Nat) (mode : Access) :
    (s.use i mode).usage = s.usage.modify i (·.use mode) := rfl
@[simp] theorem append_calls (s : Sequence) (call : Call) :
    (s.append call).calls = s.calls.push call := rfl
@[simp] theorem append_slots (s : Sequence) (call : Call) : (s.append call).slots = s.slots := rfl
@[simp] theorem append_usage (s : Sequence) (call : Call) :
    (s.append call).usage = s.usage.push {} := rfl

/-- The empty sequence keeps the discipline. -/
theorem disciplined_empty (g : Graph) : ({} : Sequence).Disciplined g where
  admitted := .nil
  slot_refs := rfl
  slot_kind := by simp
  usage_eq := rfl

namespace Disciplined

theorem usage_getD (disciplined : s.Disciplined g) {j : Nat} (bound : j < s.size) :
    s.usage.getD j default = Usage.summary (modesOf s.calls.toList j) := by
  rw [Array.getD_eq_getD_getElem?, ← Array.getElem?_toList, disciplined.usage_eq,
    List.getElem?_map, List.getElem?_range bound]
  rfl

/-- A result that some call moves is marked moved. -/
theorem isMoved_of_moves (disciplined : s.Disciplined g) {j : Nat}
    (moved : Moves s.calls.toList j) : s.isMoved j = true := by
  obtain ⟨c, member, used⟩ := moved
  have bound := disciplined.admitted.use_lt member used
  obtain ⟨first, last⟩ := disciplined.admitted.modesOf_moved ⟨c, member, used⟩
  rw [isMoved, disciplined.usage_getD (by simpa [size] using bound), last,
    Usage.summary_hold_move]
  rfl

/-- The invariant of the constructions gives the borrow discipline. -/
theorem wellFormed (disciplined : s.Disciplined g) : s.WellFormed g where
  result_edge := by
    intro i k j mode edge bound
    obtain ⟨inCalls, arg⟩ := binding?_eq_some.mp bound
    obtain ⟨before, id, rfl, edgeBound, edgeEq, modeEq⟩ :=
      (disciplined.admitted.fits i inCalls).result_edge k j mode edge arg
    rw [List.length_take] at before
    have inArray : i < s.calls.size := by simpa using inCalls
    refine ⟨by omega, id, rfl, edgeBound, ?_, modeEq⟩
    rw [edgeEq]
    simp only [fnAt, List.getD_eq_getElem?_getD, List.getElem?_take, Array.getD_eq_getD_getElem?,
      Array.getElem?_toList]
    simp [show j < i by omega, Array.getElem?_eq_getElem inArray]
  slot_bound := by
    intro i k t mode bound
    obtain ⟨inCalls, arg⟩ := binding?_eq_some.mp bound
    have member : t ∈ s.slotRefs :=
      List.mem_flatMap.mpr ⟨_, List.getElem_mem inCalls,
        List.mem_filterMap.mpr ⟨_, List.mem_of_getElem? arg, rfl⟩⟩
    rw [disciplined.slot_refs] at member
    exact List.mem_range.mp member
  slot_once := by
    intro t bound
    rw [disciplined.slot_refs]
    rw [List.count_range]
    simp [bound]
  slot_kind := disciplined.slot_kind
  moved_alone := by
    intro i k j edge bound i' k' src other order
    obtain ⟨inCalls, arg⟩ := binding?_eq_some.mp bound
    obtain ⟨inCalls', arg'⟩ := binding?_eq_some.mp other
    cases taken : src.modeOn? j with
    | none => rfl
    | some mode' =>
      exfalso
      have used' : (j, mode') ∈ s.calls.toList[i'].uses :=
        List.mem_filterMap.mpr ⟨src, List.mem_of_getElem? arg',
          Source.modeOn?_eq_some.mp taken⟩
      rcases order with later | ⟨same, ne⟩
      · -- a later call would take a result moved before it
        have inTake : i < (s.calls.toList.take i').length := by
          rw [List.length_take]
          omega
        have moves : Moves (s.calls.toList.take i') j :=
          ⟨_, List.mem_iff_getElem.mpr ⟨i, inTake, List.getElem_take⟩,
            List.mem_filterMap.mpr ⟨_, List.mem_of_getElem? arg, rfl⟩⟩
        exact (disciplined.admitted.fits i' inCalls').not_moved j mode' used' moves
      · -- the same call takes it twice
        subst same
        rcases pairwise_at (disciplined.admitted.fits _ inCalls').shared_twice ne.symm arg arg' with
          both | both
        · exact absurd (both j .move mode' rfl (Source.modeOn?_eq_some.mp taken)).1
            (by simp [Access.Shareable])
        · exact absurd (both j mode' .move (Source.modeOn?_eq_some.mp taken) rfl).2
            (by simp [Access.Shareable])
  exclusive_alone := by
    intro i k j edge bound k' src other ne
    obtain ⟨inCalls, arg⟩ := binding?_eq_some.mp bound
    obtain ⟨_, arg'⟩ := binding?_eq_some.mp other
    cases taken : src.modeOn? j with
    | none => rfl
    | some mode' =>
      exfalso
      rcases pairwise_at (disciplined.admitted.fits i inCalls).shared_twice ne.symm arg arg' with
        both | both
      · exact absurd (both j .exclusive mode' rfl (Source.modeOn?_eq_some.mp taken)).1
          (by simp [Access.Shareable])
      · exact absurd (both j mode' .exclusive (Source.modeOn?_eq_some.mp taken) rfl).2
          (by simp [Access.Shareable])
  shared_kept := by
    intro i k j mode edge bound shareable k' src mode' other taken
    obtain ⟨inCalls, arg⟩ := binding?_eq_some.mp bound
    obtain ⟨_, arg'⟩ := binding?_eq_some.mp other
    have kept : mode'.Shareable := by
      by_cases same : k' = k
      · subst same
        rw [arg] at arg'
        cases arg'
        simp only [Source.modeOn?, ite_true, Option.some.injEq] at taken
        exact taken ▸ shareable
      · rcases pairwise_at (disciplined.admitted.fits i inCalls).shared_twice same arg' arg with
          both | both
        · exact (both j mode' mode (Source.modeOn?_eq_some.mp taken) rfl).1
        · exact (both j mode mode' rfl (Source.modeOn?_eq_some.mp taken)).2
    rcases kept with rfl | rfl <;> simp
  usage_size := by
    have := congrArg List.length disciplined.usage_eq
    simpa [size] using this
  usage_summary := fun _ bound => disciplined.usage_getD bound

end Disciplined

end Sequence

end DriverSynth
