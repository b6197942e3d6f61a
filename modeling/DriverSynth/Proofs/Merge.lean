import DriverSynth.Proofs.Discipline

/-! # Merging disciplined sequences

`Sequence.appendPart` places one sequence after another: the part's slots after the first's, and
its calls after the first's with every index moved along. The discipline survives the move
because an admitted call only takes results of calls before it (`Admitted.use_lt`): no binding of
the first sequence sees the part, and the part's bindings move by the same offset as its calls.
A merge of disciplined sequences is therefore disciplined (`Sequence.merge_disciplined`).
-/

namespace DriverSynth

namespace Source

/-- A binding moved behind `calls` calls and `slots` slots. -/
def shift (calls slots : Nat) : Source → Source
  | .slot index mode => .slot (index + slots) mode
  | .result call mode edge => .result (call + calls) mode edge

theorem use?_shift (calls slots : Nat) (src : Source) :
    (src.shift calls slots).use? = src.use?.map fun p => (p.1 + calls, p.2) := by
  cases src <;> rfl

theorem slot?_shift (calls slots : Nat) (src : Source) :
    (src.shift calls slots).slot? = src.slot?.map (· + slots) := by
  cases src <;> rfl

theorem modeOn?_shift_add (calls slots j : Nat) (src : Source) :
    (src.shift calls slots).modeOn? (j + calls) = src.modeOn? j := by
  cases src with
  | slot index mode => rfl
  | result call mode edge => simp [shift, modeOn?]

theorem modeOn?_shift_of_lt {calls j : Nat} (slots : Nat) (before : j < calls) (src : Source) :
    (src.shift calls slots).modeOn? j = none := by
  cases src with
  | slot index mode => rfl
  | result call mode edge =>
    simp only [shift, modeOn?, ite_eq_right_iff, reduceCtorEq, imp_false]
    omega

end Source

namespace Call

/-- A call moved behind `calls` calls and `slots` slots, with a new stamp. -/
def shift (calls slots stamp : Nat) (c : Call) : Call :=
  { c with args := c.args.map (Source.shift calls slots), stamp }

variable {calls slots stamp : Nat}

@[simp] theorem fn_shift (c : Call) : (c.shift calls slots stamp).fn = c.fn := rfl

theorem uses_shift (c : Call) :
    (c.shift calls slots stamp).uses = c.uses.map fun p => (p.1 + calls, p.2) := by
  simp only [uses, shift, List.filterMap_map, List.map_filterMap]
  congr 1
  funext src
  exact Source.use?_shift calls slots src

theorem slots_shift (c : Call) :
    (c.shift calls slots stamp).slots = c.slots.map (· + slots) := by
  simp only [Call.slots, shift, List.filterMap_map, List.map_filterMap]
  congr 1
  funext src
  exact Source.slot?_shift calls slots src

theorem modesOn_shift_add (c : Call) (j : Nat) :
    (c.shift calls slots stamp).modesOn (j + calls) = c.modesOn j := by
  simp only [modesOn, shift, List.filterMap_map]
  congr 1
  funext src
  exact Source.modeOn?_shift_add calls slots j src

theorem modesOn_shift_of_lt {j : Nat} (before : j < calls) (c : Call) :
    (c.shift calls slots stamp).modesOn j = [] := by
  simp only [modesOn, shift, List.filterMap_map, List.filterMap_eq_nil_iff]
  intro src _
  exact Source.modeOn?_shift_of_lt slots before src

end Call

section Shift

variable {g : Graph} {calls slots stamp : Nat}

theorem modesOf_shift_add (cs : List Call) (j : Nat) :
    modesOf (cs.map (Call.shift calls slots stamp)) (j + calls) = modesOf cs j := by
  simp [modesOf, List.flatMap_map, Call.modesOn_shift_add]

theorem modesOf_shift_of_lt {j : Nat} (before : j < calls) (cs : List Call) :
    modesOf (cs.map (Call.shift calls slots stamp)) j = [] := by
  simp [modesOf, List.flatMap_map, Call.modesOn_shift_of_lt before]

-- The part's calls sit behind the first's: a moved index there was moved in the part.
private theorem moves_of_shift {first part : List Call} (admitted : Admitted g first) {j : Nat}
    (moved : Moves (first ++ part.map (Call.shift first.length slots stamp)) (j + first.length)) :
    Moves part j := by
  obtain ⟨c, member, used⟩ := moved
  rcases List.mem_append.mp member with early | late
  · have := admitted.use_lt early used
    omega
  · obtain ⟨c', member', rfl⟩ := List.mem_map.mp late
    rw [Call.uses_shift] at used
    obtain ⟨⟨j', mode⟩, used', same⟩ := List.mem_map.mp used
    simp only [Prod.mk.injEq] at same
    obtain ⟨shifted, rfl⟩ := same
    obtain rfl : j' = j := by omega
    exact ⟨c', member', used'⟩

theorem fn_getD_shift {first part : List Call} {j : Nat} (bound : j < part.length) :
    ((first ++ part.map (Call.shift first.length slots stamp)).getD (j + first.length)
      default).fn = (part.getD j default).fn := by
  rw [List.getD_eq_getElem?_getD, List.getElem?_append_right (by omega), Nat.add_sub_cancel,
    List.getElem?_map, List.getD_eq_getElem?_getD, List.getElem?_eq_getElem bound]
  rfl

/-- A call that fits after the part's earlier calls fits, moved, after the first's calls and
the moved earlier calls. -/
theorem CallFits.shift {first part : List Call} {c : Call} (admitted : Admitted g first)
    (fits : CallFits g part c) :
    CallFits g (first ++ part.map (Call.shift first.length slots stamp))
      (c.shift first.length slots stamp) where
  result_edge := by
    intro k j mode edge found
    simp only [Call.shift, List.getElem?_map] at found
    obtain ⟨src, arg, shifted⟩ := Option.map_eq_some_iff.mp found
    cases src with
    | slot index mode' => cases shifted
    | result j' mode' edge' =>
      simp only [Source.shift, Source.result.injEq] at shifted
      obtain ⟨rfl, rfl, rfl⟩ := shifted
      obtain ⟨before, id, rfl, bound, edgeEq, modeEq⟩ := fits.result_edge k j' mode' edge' arg
      refine ⟨by simp; omega, id, rfl, bound, ?_, modeEq⟩
      rw [fn_getD_shift before, Call.fn_shift]
      exact edgeEq
  not_moved := by
    intro j mode used moved
    rw [Call.uses_shift] at used
    obtain ⟨⟨j', mode'⟩, used', same⟩ := List.mem_map.mp used
    simp only [Prod.mk.injEq] at same
    obtain ⟨rfl, rfl⟩ := same
    exact fits.not_moved j' mode' used' (moves_of_shift admitted moved)
  shared_twice := by
    simp only [Call.shift]
    rw [List.pairwise_map]
    refine fits.shared_twice.imp ?_
    intro a b both j mode mode' taken taken'
    rw [Source.use?_shift] at taken taken'
    obtain ⟨⟨ja, ma⟩, usedA, sameA⟩ := Option.map_eq_some_iff.mp taken
    obtain ⟨⟨jb, mb⟩, usedB, sameB⟩ := Option.map_eq_some_iff.mp taken'
    simp only [Prod.mk.injEq] at sameA sameB
    obtain ⟨rfl, rfl⟩ := sameA
    obtain ⟨same, rfl⟩ := sameB
    obtain rfl : jb = ja := by omega
    exact both _ _ _ usedA usedB

/-- Admitted calls stay admitted behind other admitted calls once moved along. -/
theorem Admitted.append_shift {first part : List Call} (admitted : Admitted g first)
    (partAdmitted : Admitted g part) (slots stamp : Nat) :
    Admitted g (first ++ part.map (Call.shift first.length slots stamp)) := by
  induction partAdmitted with
  | nil => simpa using admitted
  | @snoc part c _ fits ih =>
    rw [List.map_append, List.map_singleton, ← List.append_assoc]
    exact ih.snoc (fits.shift admitted)

end Shift

namespace Sequence

variable {g : Graph}

theorem foldl_coverEdge (edges : List Nat) (s : Sequence) :
    edges.foldl coverEdge s =
      { s with edges := edges.foldl (fun acc e => insertOrdered e acc) s.edges } := by
  induction edges generalizing s with
  | nil => rfl
  | cons e rest ih => exact ih (s.coverEdge e)

theorem foldl_addTrait (traits : List String) (s : Sequence) :
    traits.foldl addTrait s =
      { s with traits := traits.foldl (fun acc t => insertOrdered t acc) s.traits } := by
  induction traits generalizing s with
  | nil => rfl
  | cons t rest ih => exact ih (s.addTrait t)

theorem appendPart_calls (stamp : Nat) (s part : Sequence) :
    (s.appendPart stamp part).calls =
      s.calls ++ part.calls.map (Call.shift s.size s.slots.size stamp) := by
  unfold appendPart
  simp only [foldl_coverEdge, foldl_addTrait]
  split <;> rfl

theorem appendPart_slots (stamp : Nat) (s part : Sequence) :
    (s.appendPart stamp part).slots = s.slots ++ part.slots := by
  unfold appendPart
  simp only [foldl_coverEdge, foldl_addTrait]
  split <;> rfl

theorem appendPart_usage (stamp : Nat) (s part : Sequence) :
    (s.appendPart stamp part).usage = s.usage ++ part.usage := by
  unfold appendPart
  simp only [foldl_coverEdge, foldl_addTrait]
  split <;> rfl

theorem size_appendPart (stamp : Nat) (s part : Sequence) :
    (s.appendPart stamp part).size = s.size + part.size := by
  simp [size, appendPart_calls]

/-- Appending a disciplined part to a disciplined sequence keeps the discipline. -/
theorem Disciplined.appendPart {s part : Sequence} (first : s.Disciplined g)
    (second : part.Disciplined g) (stamp : Nat) : (s.appendPart stamp part).Disciplined g where
  admitted := by
    rw [appendPart_calls, Array.toList_append, Array.toList_map]
    simpa [size] using first.admitted.append_shift second.admitted s.slots.size stamp
  slot_refs := by
    rw [slotRefs, appendPart_calls, Array.toList_append, List.flatMap_append, ← slotRefs,
      first.slot_refs, Array.toList_map, List.flatMap_map, appendPart_slots, Array.size_append,
      List.range_add]
    simp only [Call.slots_shift, ← List.map_flatMap]
    rw [← slotRefs, second.slot_refs]
    simp [Nat.add_comm]
  slot_kind := by
    intro slot member
    rw [appendPart_slots, Array.toList_append] at member
    rcases List.mem_append.mp member with old | new
    · exact first.slot_kind slot old
    · exact second.slot_kind slot new
  usage_eq := by
    have callsEq : (s.appendPart stamp part).calls.toList =
        s.calls.toList ++ part.calls.toList.map (Call.shift s.calls.toList.length s.slots.size stamp) := by
      simp [appendPart_calls, size]
    rw [appendPart_usage, Array.toList_append, first.usage_eq, second.usage_eq, size_appendPart,
      List.range_add, List.map_append, List.map_map, callsEq]
    congr 1
    · -- the part takes no result of the first sequence
      apply List.map_congr_left
      intro j member
      rw [modesOf_append, modesOf_shift_of_lt (by simpa [size] using member), List.append_nil]
    · -- the first sequence takes no result of the part, whose results are moved along
      apply List.map_congr_left
      intro i _
      have past : s.calls.toList.length ≤ s.size + i := by simp [size]
      simp only [Function.comp, modesOf_append, first.admitted.modesOf_eq_nil past,
        List.nil_append]
      rw [show s.size + i = i + s.calls.toList.length by simp [size, Nat.add_comm],
        modesOf_shift_add]

-- Folding parts onto a disciplined sequence keeps the discipline.
private theorem foldl_appendPart_disciplined (stamp : Nat) {parts : List Sequence}
    (all : ∀ q ∈ parts, q.Disciplined g) {s : Sequence} (start : s.Disciplined g) :
    (parts.foldl (Sequence.appendPart stamp) s).Disciplined g := by
  induction parts generalizing s with
  | nil => exact start
  | cons part rest ih =>
    exact ih (fun q member => all q (List.mem_cons_of_mem _ member))
      (start.appendPart (all part List.mem_cons_self) stamp)

/-- A merge of disciplined sequences is disciplined. -/
theorem merge_disciplined (stamp : Nat) {parts : List Sequence}
    (all : ∀ q ∈ parts, q.Disciplined g) : (merge stamp parts).Disciplined g := by
  cases parts with
  | nil => exact disciplined_empty g
  | cons first rest =>
    exact foldl_appendPart_disciplined stamp (fun q member => all q (List.mem_cons_of_mem _ member))
      (all first List.mem_cons_self)

end Sequence

end DriverSynth
