import DriverSynth.Proofs.Discipline
import DriverSynth.Proofs.GraphIndex

/-! # Admitting a call keeps the borrow discipline

`Api.extend?` binds the parameters of the new call one after the other, keeping the borrows that
the call has taken so far. Those borrows track the results taken (`Borrows.Tracks`), so the test
`Borrows.allows` lets a result be taken twice in one call only when both takes share or copy it.
A result comes from `Api.supplier?`, which skips moved results and follows the graph, so each
taken result is an earlier, unmoved one along an edge into the parameter.

The main statement, `Api.extend?_disciplined`: when the graph is the one built from the catalog,
admitting a call to a disciplined sequence gives a disciplined sequence.
-/

namespace DriverSynth

namespace Borrows

/-- The borrows of a call record exactly the results it took: those moved, those borrowed
exclusively, and the others. -/
def Tracks (b : Borrows) (uses : List (Nat × Access)) : Prop :=
  ∀ j, (j ∈ b.moved ↔ (j, .move) ∈ uses) ∧ (j ∈ b.exclusive ↔ (j, .exclusive) ∈ uses) ∧
    (j ∈ b.shared ↔ ∃ mode, (j, mode) ∈ uses ∧ mode ≠ .move ∧ mode ≠ .exclusive)

theorem tracks_empty : ({} : Borrows).Tracks [] := by
  intro j
  simp

/-- Recording a take keeps the borrows in step with the takes. -/
theorem Tracks.record {b : Borrows} {uses : List (Nat × Access)} (tracks : b.Tracks uses)
    (j : Nat) (mode : Access) : (b.record j mode).Tracks (uses ++ [(j, mode)]) := by
  intro j'
  obtain ⟨moved, exclusive, shared⟩ := tracks j'
  by_cases same : j' = j
  · subst same
    cases mode <;> simp [Borrows.record, moved, exclusive, shared, or_comm]
  · cases mode <;> simp [Borrows.record, moved, exclusive, shared, same]

/-- A result the borrows allow to take is taken in a passing mode, and a second take of a result
already taken is a share or a copy, as are the takes before it. -/
theorem Tracks.allows {b : Borrows} {uses : List (Nat × Access)} (tracks : b.Tracks uses)
    {j : Nat} {mode : Access} (allowed : b.allows j mode = true) :
    mode ≠ .incompatible ∧ ∀ mode', (j, mode') ∈ uses → mode' ≠ .incompatible →
      mode.Shareable ∧ mode'.Shareable := by
  obtain ⟨moved, exclusive, shared⟩ := tracks j
  unfold Borrows.allows at allowed
  split at allowed
  · cases allowed
  rename_i free
  simp only [Bool.or_eq_true, List.contains_iff_mem, not_or] at free
  have notMoved : (j, Access.move) ∉ uses := fun member => free.1 (moved.mpr member)
  have notExclusive : (j, Access.exclusive) ∉ uses := fun member => free.2 (exclusive.mpr member)
  -- a take of `j` so far is neither a move nor an exclusive borrow
  have other : ∀ mode', (j, mode') ∈ uses → mode' ≠ .move ∧ mode' ≠ .exclusive := by
    intro mode' member
    constructor
    · rintro rfl
      exact notMoved member
    · rintro rfl
      exact notExclusive member
  cases mode with
  | move | exclusive =>
    have notShared : j ∉ b.shared := by simpa using allowed
    exact ⟨by simp, fun mode' member _ =>
      absurd (shared.mpr ⟨mode', member, other mode' member⟩) notShared⟩
  | copy | shared =>
    refine ⟨by simp, fun mode' member compatible => ⟨by simp [Access.Shareable], ?_⟩⟩
    obtain ⟨notMove, notExcl⟩ := other mode' member
    cases mode' <;> simp_all [Access.Shareable]
  | incompatible => cases allowed

end Borrows

namespace Api

variable {api : Api}

/-- The supplier of a parameter is an earlier call whose result is not moved, with an edge into
the parameter whose mode the borrows allow. -/
theorem supplier?_spec {base : Sequence} {borrows : Borrows} {fn k j id : Nat}
    (found : api.supplier? base borrows fn k = some (j, id)) :
    j < base.size ∧ base.isMoved j = false ∧ id ∈ api.graph.between (base.fnAt j) fn k ∧
      borrows.allows j (api.graph.edge id).link.mode = true := by
  unfold supplier? at found
  obtain ⟨j', member, picked⟩ := List.exists_of_findSome?_eq_some found
  split at picked
  · cases picked
  rename_i notMoved
  obtain ⟨id', first, same⟩ := Option.map_eq_some_iff.mp picked
  cases same
  have allowed := List.find?_some first
  exact ⟨List.mem_range.mp member, by simpa using notMoved, List.mem_of_find?_eq_some first,
    allowed⟩

/-- Binding one parameter gives it a new slot when it is decoded from fuzz bytes, and otherwise the
result that the supplier finds, recording the take and the edge. -/
theorem bindParam_eq_some {base : Sequence} {fn k : Nat} {d d' : Draft}
    (bound : api.bindParam base fn d k = some d') :
    ((api.paramClass fn k).kind = .fixed ∨ (api.paramClass fn k).kind = .variable) ∧
      d' = { d with
        seq := d.seq.addSlot (api.slotFor fn k (api.paramClass fn k))
        args := .slot d.seq.slots.size
          (if (api.paramClass fn k).mutable then .exclusive else .copy) :: d.args } ∨
    ∃ j id, api.supplier? base d.borrows fn k = some (j, id) ∧
      d' = { d with
        seq := if (api.graph.edge id).link.needsUnsafe then (d.seq.coverEdge id).markUnsafe
          else d.seq.coverEdge id
        borrows := d.borrows.record j (api.graph.edge id).link.mode
        uses := d.uses ++ [(j, (api.graph.edge id).link.mode)]
        args := .result j (api.graph.edge id).link.mode (some id) :: d.args } := by
  unfold bindParam at bound
  dsimp only at bound
  -- the kinds in their order: not fuzzable, fixed, variable, unencodable
  cases kind : (api.paramClass fn k).kind
  · simp only [kind] at bound
    split at bound
    · cases bound
    · rename_i j id found
      cases bound
      exact .inr ⟨j, id, found, rfl⟩
  · simp only [kind, Option.some.injEq] at bound
    exact .inl ⟨.inl rfl, bound.symm⟩
  · simp only [kind, Option.some.injEq] at bound
    exact .inl ⟨.inr rfl, bound.symm⟩
  · simp [kind] at bound

/-- A call of `fn` on `base` drafted up to parameter `k`: the sequence only gained slots, one per
decoded parameter and in order, the borrows track the takes, every take passes a value, and the
bound parameters fit after the calls of `base`. -/
structure DraftFits (api : Api) (base : Sequence) (fn k : Nat) (d : Draft) : Prop where
  calls : d.seq.calls = base.calls
  usage : d.seq.usage = base.usage
  arity : d.args.length = k
  slots : ∃ extra : List Slot, d.seq.slots.toList = base.slots.toList ++ extra ∧
    (∀ slot ∈ extra, slot.kind = .fixed ∨ slot.kind = .variable) ∧
    d.args.reverse.filterMap Source.slot? = List.range' base.slots.size extra.length
  uses : d.uses = d.args.reverse.filterMap Source.use?
  tracks : d.borrows.Tracks d.uses
  passing : ∀ p ∈ d.uses, p.2 ≠ .incompatible
  fits : CallFits api.graph base.calls.toList ⟨fn, d.args.reverse, false, 0⟩

/-- The draft before any parameter is bound. -/
theorem draftFits_start {base start : Sequence} {fn : Nat} (calls : start.calls = base.calls)
    (slots : start.slots = base.slots) (usage : start.usage = base.usage) :
    DraftFits api base fn 0 { seq := start } where
  calls := calls
  usage := usage
  arity := rfl
  slots := ⟨[], by simp [slots], by simp, rfl⟩
  uses := rfl
  tracks := Borrows.tracks_empty
  passing := by simp
  fits := ⟨by simp, by simp [Call.uses], List.Pairwise.nil⟩

end Api

-- Appending a binding to the bound parameters.
private theorem getElem?_append_one {α : Type} {l : List α} {x : α} {k : Nat} {y : α}
    (found : (l ++ [x])[k]? = some y) : l[k]? = some y ∨ k = l.length ∧ x = y := by
  rw [List.getElem?_append] at found
  split at found
  · exact .inl found
  · rename_i past
    rw [List.getElem?_singleton] at found
    split at found
    · cases found
      exact .inr ⟨by omega, rfl⟩
    · cases found

namespace CallFits

variable {g : Graph} {calls : List Call} {fn : Nat} {args : List Source} {produces : Bool}
  {stamp : Nat}

/-- A call still fits after one more parameter decoded from a slot. -/
theorem snoc_slot (fits : CallFits g calls ⟨fn, args, produces, stamp⟩) (t : Nat) (mode : Access)
    (produces' : Bool) (stamp' : Nat) :
    CallFits g calls ⟨fn, args ++ [.slot t mode], produces', stamp'⟩ where
  result_edge := by
    intro k j mode' edge found
    rcases getElem?_append_one found with old | ⟨-, contra⟩
    · exact fits.result_edge k j mode' edge old
    · cases contra
  not_moved := by
    intro j mode' member
    apply fits.not_moved j mode'
    simpa [Call.uses, List.filterMap_append, Source.use?] using member
  shared_twice := by
    refine List.pairwise_append.mpr ⟨fits.shared_twice, List.pairwise_singleton _ _, ?_⟩
    intro a _ b last j m m' _ taken
    rw [List.mem_singleton.mp last] at taken
    cases taken

/-- A call still fits after one more parameter taking an earlier, unmoved result along an edge
into it, when that result was so far only shared or copied, and is so again. -/
theorem snoc_result (fits : CallFits g calls ⟨fn, args, produces, stamp⟩) {j id : Nat}
    {mode : Access} (before : j < calls.length) (bound : id < g.numEdges)
    (edge : g.edge id = ⟨(calls.getD j default).fn, fn, args.length, (g.edge id).link⟩)
    (edgeMode : (g.edge id).link.mode = mode) (notMoved : ¬ Moves calls j)
    (shared : ∀ a ∈ args, ∀ m, a.use? = some (j, m) → m.Shareable ∧ mode.Shareable)
    (produces' : Bool) (stamp' : Nat) :
    CallFits g calls ⟨fn, args ++ [.result j mode (some id)], produces', stamp'⟩ where
  result_edge := by
    intro k j' mode' edge' found
    rcases getElem?_append_one found with old | ⟨position, last⟩
    · exact fits.result_edge k j' mode' edge' old
    · cases last
      subst position
      exact ⟨before, id, rfl, bound, edge, edgeMode⟩
  not_moved := by
    intro j' mode' member
    simp only [Call.uses, List.filterMap_append, Source.use?, List.filterMap_cons,
      List.filterMap_nil, List.mem_append, List.mem_singleton, Prod.mk.injEq] at member
    rcases member with old | ⟨rfl, -⟩
    · exact fits.not_moved j' mode' old
    · exact notMoved
  shared_twice := by
    refine List.pairwise_append.mpr ⟨fits.shared_twice, List.pairwise_singleton _ _, ?_⟩
    intro a member b last j' m m' taken taken'
    rw [List.mem_singleton.mp last] at taken'
    simp only [Source.use?, Option.some.injEq, Prod.mk.injEq] at taken'
    obtain ⟨rfl, rfl⟩ := taken'
    exact shared a member m taken

end CallFits

namespace Sequence

variable {g : Graph}

/-- A sequence `seq` ready for `call` to be appended after the calls of `base`: it holds the
calls of `base`, the slots of `base` followed by the call's new slots in the order the call reads
them, and the usage of `base` with the call's takes recorded; the call fits after `base`. -/
structure Prepared (g : Graph) (base seq : Sequence) (call : Call) : Prop where
  calls : seq.calls = base.calls
  slots : ∃ extra : List Slot, seq.slots.toList = base.slots.toList ++ extra ∧
    (∀ slot ∈ extra, slot.kind = .fixed ∨ slot.kind = .variable) ∧
    call.slots = List.range' base.slots.size extra.length
  usage : ∀ j, seq.usage[j]? = base.usage[j]?.map fun u => (call.modesOn j).foldl Usage.use u
  fits : CallFits g base.calls.toList call

namespace Prepared

variable {base seq : Sequence} {fn : Nat} {args : List Source} {produces : Bool} {stamp : Nat}

/-- Before any parameter is bound, the sequence is ready for the call without arguments. -/
theorem start (base : Sequence) (fn : Nat) (produces : Bool) (stamp : Nat) :
    Prepared g base base ⟨fn, [], produces, stamp⟩ where
  calls := rfl
  slots := ⟨[], by simp, by simp, rfl⟩
  usage := by simp [Call.modesOn]
  fits := ⟨by simp, by simp [Call.uses], List.Pairwise.nil⟩

/-- A change that keeps calls, slots and usage keeps the sequence ready. -/
theorem frame {call : Call} (prepared : Prepared g base seq call) {seq' : Sequence}
    (calls : seq'.calls = seq.calls) (slots : seq'.slots = seq.slots)
    (usage : seq'.usage = seq.usage) : Prepared g base seq' call where
  calls := calls.trans prepared.calls
  slots := slots ▸ prepared.slots
  usage := usage ▸ prepared.usage
  fits := prepared.fits

/-- Binding the next parameter to a new slot of fixed or variable size. -/
theorem addSlot (prepared : Prepared g base seq ⟨fn, args, produces, stamp⟩) {slot : Slot}
    (kind : slot.kind = .fixed ∨ slot.kind = .variable) (mode : Access) :
    Prepared g base (seq.addSlot slot)
      ⟨fn, args ++ [.slot seq.slots.size mode], produces, stamp⟩ where
  calls := prepared.calls
  slots := by
    obtain ⟨extra, prefixEq, kinds, refs⟩ := prepared.slots
    have size : seq.slots.size = base.slots.size + extra.length := by
      simpa using congrArg List.length prefixEq
    refine ⟨extra ++ [slot], by simp [prefixEq], ?_, ?_⟩
    · intro slot' member
      rcases List.mem_append.mp member with old | new
      · exact kinds slot' old
      · rw [List.mem_singleton.mp new]
        exact kind
    · simp only [Call.slots, List.filterMap_append, List.filterMap_cons, List.filterMap_nil,
        Source.slot?] at refs ⊢
      rw [refs, size, List.length_append, List.length_singleton, List.range'_concat,
        Nat.one_mul]
  usage := by
    intro j
    rw [addSlot_usage, prepared.usage]
    simp [Call.modesOn, List.filterMap_append, List.filterMap_cons, Source.modeOn?]
  fits := prepared.fits.snoc_slot _ _ _ _

/-- Binding the next parameter to an earlier result that no other binding of the call takes,
along an edge into it, recording the take. -/
theorem use (prepared : Prepared g base seq ⟨fn, args, produces, stamp⟩) {j id : Nat}
    {mode : Access} (before : j < base.calls.toList.length) (bound : id < g.numEdges)
    (edge : g.edge id = ⟨(base.calls.toList.getD j default).fn, fn, args.length,
      (g.edge id).link⟩)
    (edgeMode : (g.edge id).link.mode = mode) (notMoved : ¬ Moves base.calls.toList j)
    (fresh : ∀ a ∈ args, ∀ m, a.use? ≠ some (j, m)) :
    Prepared g base (seq.use j mode) ⟨fn, args ++ [.result j mode (some id)], produces, stamp⟩ where
  calls := prepared.calls
  slots := by
    obtain ⟨extra, prefixEq, kinds, refs⟩ := prepared.slots
    refine ⟨extra, prefixEq, kinds, ?_⟩
    simpa [Call.slots, List.filterMap_append, List.filterMap_cons, Source.slot?] using refs
  usage := by
    intro j'
    rw [use_usage, Array.getElem?_modify, prepared.usage]
    by_cases same : j = j'
    · subst same
      cases base.usage[j]? <;> simp [Call.modesOn, List.filterMap_append, Source.modeOn?]
    · simp [same, Call.modesOn, List.filterMap_append, Source.modeOn?]
  fits := prepared.fits.snoc_result before bound edge edgeMode notMoved
    (fun a member m taken => absurd taken (fresh a member m)) _ _

end Prepared

-- Arrays related entry by entry have the same size.
private theorem size_eq_of_getElem? {α β : Type} {xs : Array α} {ys : Array β} {f : Nat → β → α}
    (each : ∀ j, xs[j]? = ys[j]?.map (f j)) : xs.size = ys.size := by
  have mapped : xs = ys.mapIdx f := Array.ext_getElem? fun j => by
    rw [each, Array.getElem?_mapIdx]
  rw [mapped, Array.size_mapIdx]

/-- Appending a call to a sequence ready for it keeps the discipline. -/
theorem Disciplined.append_prepared {base seq : Sequence} {call : Call}
    (disciplined : base.Disciplined g) (prepared : Prepared g base seq call) :
    (seq.append call).Disciplined g := by
  obtain ⟨extra, prefixEq, kinds, refs⟩ := prepared.slots
  have usageSize : base.usage.size = base.size := by
    simpa using congrArg List.length disciplined.usage_eq
  have seqSize : seq.usage.size = base.size := (size_eq_of_getElem? prepared.usage).trans usageSize
  constructor
  · simpa [prepared.calls] using disciplined.admitted.snoc prepared.fits
  · have size : seq.slots.size = base.slots.size + extra.length := by
      simpa using congrArg List.length prefixEq
    simp only [slotRefs, append_calls, append_slots, prepared.calls, Array.toList_push,
      List.flatMap_append, List.flatMap_cons, List.flatMap_nil, List.append_nil]
    rw [← slotRefs, disciplined.slot_refs, size, refs, List.range_eq_range', List.range_eq_range']
    simpa using List.range'_append_1 (s := 0) (m := base.slots.size) (n := extra.length)
  · intro slot member
    rw [append_slots, prefixEq] at member
    rcases List.mem_append.mp member with old | new
    · exact disciplined.slot_kind slot old
    · exact kinds slot new
  · apply List.ext_getElem?
    intro j
    rw [Array.getElem?_toList, append_usage, Array.getElem?_push, List.getElem?_map]
    simp only [append_calls, prepared.calls, Array.toList_push, size, Array.size_push, seqSize]
    by_cases before : j < base.calls.size
    · -- an earlier result gains the modes the new call takes it in
      have earlier : base.usage[j]? = some (Usage.summary (modesOf base.calls.toList j)) := by
        rw [← Array.getElem?_toList, disciplined.usage_eq, List.getElem?_map,
          List.getElem?_range (by simpa [size] using before)]
        rfl
      simp only [Nat.ne_of_lt before, ↓reduceIte, prepared.usage, earlier]
      rw [List.getElem?_range (by omega)]
      simp only [Option.map_some, modesOf_append, modesOf_singleton, Usage.summary_append]
    · by_cases last : j = base.calls.size
      · -- the new call's own result is not taken yet
        subst last
        have none : modesOf base.calls.toList base.calls.size = [] :=
          disciplined.admitted.modesOf_eq_nil (by simp)
        have own : call.modesOn base.calls.size = [] := by
          rw [List.eq_nil_iff_forall_not_mem]
          intro mode member
          have := prepared.fits.use_lt (Call.mem_modesOn.mp member)
          simp at this
        simp only [↓reduceIte]
        rw [List.getElem?_range (by omega)]
        simp only [Option.map_some, modesOf_append, modesOf_singleton, none, own]
        rfl
      · -- past the end there is nothing on either side
        have past : base.calls.size + 1 ≤ j := by omega
        simp only [last, ↓reduceIte]
        rw [Array.getElem?_eq_none (by simp [seqSize, size]; omega),
          List.getElem?_eq_none (by simpa using past)]
        rfl

end Sequence

namespace Api

variable {api : Api}

-- An edge is determined by its triple and its link.
private theorem edge_eq_of_triple {e : Edge} {p c k : Nat} (triple : e.triple = (p, c, k)) :
    e = ⟨p, c, k, e.link⟩ := by
  obtain ⟨p', c', k', l⟩ := e
  simp only [Edge.triple, Prod.mk.injEq] at triple
  obtain ⟨rfl, rfl, rfl⟩ := triple
  rfl

/-- An id the graph lists between a triple names an edge of that triple that passes a value. -/
theorem edge_of_mem_between (built : api.graph = Graph.build api.catalog) {p c k id : Nat}
    (member : id ∈ api.graph.between p c k) :
    id < api.graph.numEdges ∧ api.graph.edge id = ⟨p, c, k, (api.graph.edge id).link⟩ ∧
      (api.graph.edge id).link.mode ≠ .incompatible := by
  rw [built] at member ⊢
  obtain ⟨bound, triple, -⟩ := Graph.mem_between member
  have compatible := Graph.edge_compatible bound
  simp only [Link.compatible, bne_iff_ne, ne_eq] at compatible
  exact ⟨bound, edge_eq_of_triple triple, compatible⟩

theorem fnAt_eq (s : Sequence) (j : Nat) : s.fnAt j = (s.calls.toList.getD j default).fn := by
  simp [Sequence.fnAt, List.getD_eq_getElem?_getD, Array.getD_eq_getD_getElem?]

/-- Binding one more parameter keeps the draft fitting. -/
theorem DraftFits.bindParam (built : api.graph = Graph.build api.catalog) {base : Sequence}
    (disciplined : base.Disciplined api.graph) {fn k : Nat} {d d' : Draft}
    (fits : DraftFits api base fn k d) (step : api.bindParam base fn d k = some d') :
    DraftFits api base fn (k + 1) d' := by
  obtain ⟨extra, prefixEq, kinds, refs⟩ := fits.slots
  have size : d.seq.slots.size = base.slots.size + extra.length := by
    simpa using congrArg List.length prefixEq
  rcases bindParam_eq_some step with ⟨kind, rfl⟩ | ⟨j, id, found, rfl⟩
  · -- a decoded parameter takes the next slot
    refine ⟨by simp [fits.calls], by simp [fits.usage], by simp [fits.arity],
      ⟨extra ++ [api.slotFor fn k (api.paramClass fn k)], ?_, ?_, ?_⟩, ?_, fits.tracks,
      fits.passing, ?_⟩
    · simp [prefixEq]
    · intro slot member
      rcases List.mem_append.mp member with old | new
      · exact kinds slot old
      · rw [List.mem_singleton.mp new]
        exact kind
    · simp [List.filterMap_append, refs, Source.slot?, size, List.range'_concat]
    · simp [fits.uses, List.filterMap_append, Source.use?]
    · simpa using fits.fits.snoc_slot d.seq.slots.size _ false 0
  · -- any other parameter takes the result the supplier finds
    obtain ⟨before, notMoved, between, allowed⟩ := supplier?_spec found
    obtain ⟨bound, edge, passing⟩ := edge_of_mem_between built between
    have taken := fits.tracks.allows allowed
    refine ⟨by split <;> simp [fits.calls], by split <;> simp [fits.usage],
      by simp [fits.arity], ⟨extra, by split <;> simp [prefixEq], kinds,
        by simp [List.filterMap_append, refs, Source.slot?]⟩,
      by simp [fits.uses, List.filterMap_append, Source.use?], fits.tracks.record _ _, ?_, ?_⟩
    · intro p member
      rcases List.mem_append.mp member with old | new
      · exact fits.passing p old
      · rw [List.mem_singleton.mp new]
        exact passing
    · have shared : ∀ a ∈ d.args.reverse, ∀ m, a.use? = some (j, m) →
          m.Shareable ∧ (api.graph.edge id).link.mode.Shareable := by
        intro a member m used
        have inUses : (j, m) ∈ d.uses := by
          rw [fits.uses]
          exact List.mem_filterMap.mpr ⟨a, member, used⟩
        exact (taken.2 m inUses (fits.passing _ inUses)).symm
      have fitsNext := fits.fits.snoc_result (by simpa [Sequence.size] using before) bound
        (by rw [List.length_reverse, fits.arity, ← fnAt_eq]; exact edge) rfl
        (fun moves => by simp [disciplined.isMoved_of_moves moves] at notMoved) shared false 0
      simpa using fitsNext

-- A property that binding each parameter carries to the next holds once all are bound.
theorem foldlM_range_invariant {α : Type} {f : α → Nat → Option α} (P : Nat → α → Prop)
    {n : Nat} {init result : α} (start : P 0 init)
    (step : ∀ k a a', k < n → P k a → f a k = some a' → P (k + 1) a')
    (run : (List.range n).foldlM f init = some result) : P n result := by
  induction n generalizing result with
  | zero =>
    cases run
    exact start
  | succ n ih =>
    rw [List.range_succ, List.foldlM_append] at run
    obtain ⟨middle, first, last⟩ := Option.bind_eq_some_iff.mp run
    simp only [List.foldlM_cons, List.foldlM_nil, Option.bind_eq_bind] at last
    obtain ⟨final, bound, done⟩ := Option.bind_eq_some_iff.mp last
    have same : final = result := Option.some.inj done
    subst same
    exact step n middle final (Nat.lt_succ_self n)
      (ih (fun k a a' lt => step k a a' (Nat.lt_succ_of_lt lt)) first) bound

theorem foldl_use_calls (uses : List (Nat × Access)) (seq : Sequence) :
    (uses.foldl (fun acc (j, mode) => acc.use j mode) seq).calls = seq.calls := by
  induction uses generalizing seq with
  | nil => rfl
  | cons use rest ih => rw [List.foldl_cons, ih]; rfl

theorem foldl_use_usage_size (uses : List (Nat × Access)) (seq : Sequence) :
    (uses.foldl (fun acc (j, mode) => acc.use j mode) seq).usage.size = seq.usage.size := by
  induction uses generalizing seq with
  | nil => rfl
  | cons use rest ih => rw [List.foldl_cons, ih]; simp

theorem foldl_use_slots (uses : List (Nat × Access)) (seq : Sequence) :
    (uses.foldl (fun acc (j, mode) => acc.use j mode) seq).slots = seq.slots := by
  induction uses generalizing seq with
  | nil => rfl
  | cons use rest ih => rw [List.foldl_cons, ih]; rfl

/-- Recording takes in order adds to each result's usage the modes it is taken in. -/
theorem foldl_use_usage (uses : List (Nat × Access)) (seq : Sequence) (j : Nat) :
    (uses.foldl (fun acc (j, mode) => acc.use j mode) seq).usage[j]? =
      seq.usage[j]?.map fun u =>
        (uses.filterMap fun p => if p.1 = j then some p.2 else none).foldl Usage.use u := by
  induction uses generalizing seq with
  | nil => simp
  | cons use rest ih =>
    obtain ⟨i, mode⟩ := use
    rw [List.foldl_cons, ih]
    simp only [Sequence.use_usage, Array.getElem?_modify, List.filterMap_cons]
    by_cases same : i = j
    · subst same
      cases seq.usage[i]? <;> simp
    · simp [same]

theorem Call.modesOn_eq (c : Call) (j : Nat) :
    c.modesOn j = c.uses.filterMap fun p => if p.1 = j then some p.2 else none := by
  simp only [Call.modesOn, Call.uses, List.filterMap_filterMap]
  congr 1
  funext src
  cases src with
  | slot index mode => rfl
  | result call mode edge => simp [Source.modeOn?, Source.use?]

/-- Completing a fitting draft, by recording its takes and appending its call, keeps the
discipline. -/
theorem DraftFits.finish {base : Sequence} (disciplined : base.Disciplined api.graph)
    {fn k : Nat} {d : Draft} (fits : DraftFits api base fn k d) (produces : Bool)
    (stamp : Nat) :
    ((d.uses.foldl (fun acc (j, mode) => acc.use j mode) d.seq).append
      ⟨fn, d.args.reverse, produces, stamp⟩).Disciplined api.graph := by
  apply disciplined.append_prepared
  refine ⟨by rw [foldl_use_calls, fits.calls], ?_, ?_,
    ⟨fits.fits.result_edge, fits.fits.not_moved, fits.fits.shared_twice⟩⟩
  · obtain ⟨extra, prefixEq, kinds, refs⟩ := fits.slots
    exact ⟨extra, by rw [foldl_use_slots, prefixEq], kinds, refs⟩
  · intro j
    rw [foldl_use_usage, fits.usage, Call.modesOn_eq, Call.uses, ← fits.uses]

/-- Admitting one more call keeps the discipline. -/
theorem extend?_disciplined (built : api.graph = Graph.build api.catalog) {s s' : Sequence}
    (disciplined : s.Disciplined api.graph) {stamp fn : Nat}
    (extended : api.extend? stamp s fn = some s') : s'.Disciplined api.graph := by
  unfold extend? at extended
  dsimp only at extended
  split at extended
  · cases extended
  -- the draft starts from the sequence with its unsafe mark and trait, which leave calls,
  -- slots and usage as they were; each remaining goal below is one of those three facts
  split at extended
  · cases extended
    refine (draftFits_start ?_ ?_ ?_).finish disciplined _ _
    all_goals split <;> split <;> rfl
  · split at extended
    · cases extended
    · rename_i d folded
      have fits : DraftFits api s fn (api.catalog.sig fn).params.length d := by
        refine foldlM_range_invariant (fun k d => DraftFits api s fn k d)
          (draftFits_start ?_ ?_ ?_) (fun _ _ _ _ fits step => fits.bindParam built disciplined step)
          folded
        all_goals split <;> split <;> rfl
      split at extended
      · cases extended
      · cases extended
        exact fits.finish disciplined _ _

end Api

end DriverSynth
