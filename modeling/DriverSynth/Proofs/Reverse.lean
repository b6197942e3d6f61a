import DriverSynth.Proofs.Admission
import DriverSynth.Proofs.Merge
import DriverSynth.Proofs.Constructible

/-! # Reverse construction keeps the borrow discipline

What resolving the parameters finds (`Api.Resolution`) is what `assemble` needs: disciplined parts,
one per resolved parameter, each ending in a producer with an edge into it, and every other
parameter fuzzable. `assemble` calls the target on the last call of each part, which nothing in
the merge takes (`Api.assemble_disciplined`). The memo stays sound (`ReverseMemo.Sound`), and
`Api.reverseWith_sound` draws that from the one induction of `Proofs/ReverseMemo`.
-/

namespace DriverSynth

/-- What reverse construction remembers is sound: the functions it may build are encodable, and
every sequence it built is disciplined and ends in its target. -/
structure ReverseMemo.Sound (api : Api) (memo : ReverseMemo) : Prop where
  encodable : api.MarksEncodable memo.constructible
  built : ∀ f q, memo.built.getD f none = some q → q.Disciplined api.graph ∧ q.lastFn? = some f

namespace ReverseMemo

variable {api : Api}

theorem sound_new (api : Api) : (ReverseMemo.new api).Sound api where
  encodable := Api.constructible_marks
  built := by
    intro f q found
    simp only [ReverseMemo.new, Array.getD_eq_getD_getElem?, Array.getElem?_replicate] at found
    split at found <;> simp at found

end ReverseMemo

namespace Api

variable {api : Api}

/-- A builder keeps the memo sound and builds, for a function, a disciplined sequence ending
in it. -/
def BuildSound (api : Api) (build : Nat → ReverseMemo → Option Sequence × ReverseMemo × Bool) :
    Prop :=
  ∀ f memo, memo.Sound api → (build f memo).2.1.Sound api ∧
    ∀ q, (build f memo).1 = some q → q.Disciplined api.graph ∧ q.lastFn? = some f

/-- A sequence that supplies parameter `k` of `target` along `edge`: disciplined, and ending in a
function with that edge into the parameter. -/
def Supplies (api : Api) (target k : Nat) (q : Sequence) (edge : Nat) : Prop :=
  q.Disciplined api.graph ∧ ∃ p, q.lastFn? = some p ∧ edge ∈ api.graph.between p target k

/-- What resolving the parameters of `target` before `k` has found: one part per resolved
parameter, in order, each supplying its parameter; while nothing failed, every parameter before
`k` that is not fuzzable is resolved. -/
structure Resolution (api : Api) (target k : Nat) (parts : List Sequence)
    (resolved : List Resolved) (ok : Bool) : Prop where
  parts_eq : resolved.map (·.part) = List.range parts.length
  supplies : ∀ r ∈ resolved, ∃ q, parts[r.part]? = some q ∧ api.Supplies target r.param q r.edge
  covered : ok = true → ∀ k' < k, (api.paramClass target k').fuzzable = false →
    ∃ r ∈ resolved, r.param = k'

/-- The part of a resolved parameter is one of the parts. -/
theorem Resolution.part_lt {target k : Nat} {parts : List Sequence} {resolved : List Resolved}
    {ok : Bool} (resolution : api.Resolution target k parts resolved ok) {r : Resolved}
    (member : r ∈ resolved) : r.part < parts.length := by
  have listed := List.mem_map_of_mem (f := (·.part)) member
  rw [resolution.parts_eq] at listed
  exact List.mem_range.mp listed

/-- Every part supplies the parameter resolved to it. -/
theorem Resolution.mem_parts {target k : Nat} {parts : List Sequence} {resolved : List Resolved}
    {ok : Bool} (resolution : api.Resolution target k parts resolved ok) {q : Sequence}
    (member : q ∈ parts) : ∃ r ∈ resolved, api.Supplies target r.param q r.edge := by
  obtain ⟨i, bound, rfl⟩ := List.mem_iff_getElem.mp member
  have listed : i ∈ resolved.map (·.part) := by
    rw [resolution.parts_eq]
    exact List.mem_range.mpr bound
  obtain ⟨r, resolvedMember, rfl⟩ := List.mem_map.mp listed
  obtain ⟨q, part, supplies⟩ := resolution.supplies r resolvedMember
  rw [List.getElem?_eq_getElem bound, Option.some.injEq] at part
  rw [part]
  exact ⟨r, resolvedMember, supplies⟩

/-- Two resolved parameters with the same part are the same. -/
theorem Resolution.eq_of_part {target k : Nat} {parts : List Sequence} {resolved : List Resolved}
    {ok : Bool} (resolution : api.Resolution target k parts resolved ok) {r r' : Resolved}
    (member : r ∈ resolved) (member' : r' ∈ resolved) (same : r.part = r'.part) : r = r' := by
  obtain ⟨i, bound, rfl⟩ := List.mem_iff_getElem.mp member
  obtain ⟨i', bound', rfl⟩ := List.mem_iff_getElem.mp member'
  have lengths : resolved.length = parts.length := by
    simpa using congrArg List.length resolution.parts_eq
  have parts : ∀ n (h : n < resolved.length), resolved[n].part = n := by
    intro n h
    have := congrArg (·[n]?) resolution.parts_eq
    simp only [List.getElem?_map, List.getElem?_eq_getElem h, Option.map_some] at this
    rw [List.getElem?_range (by omega)] at this
    exact Option.some.inj this
  rw [parts i bound, parts i' bound'] at same
  subst same
  rfl

end Api

/-- No call of an admitted list takes the result of its last call. -/
theorem Admitted.modesOf_last {g : Graph} {calls : List Call} (admitted : Admitted g calls) :
    modesOf calls (calls.length - 1) = [] := by
  rw [modesOf, List.flatMap_eq_nil_iff]
  intro c member
  obtain ⟨i, bound, rfl⟩ := List.mem_iff_getElem.mp member
  rw [List.eq_nil_iff_forall_not_mem]
  intro mode taken
  have := (admitted.fits i bound).use_lt (Call.mem_modesOn.mp taken)
  rw [List.length_take] at this
  omega

namespace Sequence

variable {g : Graph}

/-- Call `idx` of `s` is a call of `f` whose result no call of `s` takes. -/
def FreeCall (s : Sequence) (idx f : Nat) : Prop :=
  idx < s.size ∧ (s.calls.toList.getD idx default).fn = f ∧ modesOf s.calls.toList idx = []

theorem lastFn?_eq_some {s : Sequence} {f : Nat} (last : s.lastFn? = some f) :
    0 < s.size ∧ (s.calls.toList.getD (s.size - 1) default).fn = f := by
  unfold lastFn? at last
  rw [Array.back?_eq_getElem?] at last
  obtain ⟨c, found, rfl⟩ := Option.map_eq_some_iff.mp last
  obtain ⟨bound, rfl⟩ := Array.getElem?_eq_some_iff.mp found
  refine ⟨by simp only [size]; omega, ?_⟩
  rw [List.getD_eq_getElem?_getD, Array.getElem?_toList]
  simp only [size]
  rw [Array.getElem?_eq_getElem bound]
  rfl

theorem lastFn?_append (s : Sequence) (c : Call) : (s.append c).lastFn? = some c.fn := by
  simp [lastFn?, append_calls, Array.back?_push]

/-- The last call of a disciplined sequence is free. -/
theorem Disciplined.freeCall_last {s : Sequence} (disciplined : s.Disciplined g) {f : Nat}
    (last : s.lastFn? = some f) : s.FreeCall (s.size - 1) f := by
  obtain ⟨nonempty, fn⟩ := lastFn?_eq_some last
  refine ⟨by omega, fn, ?_⟩
  simpa [size] using disciplined.admitted.modesOf_last

/-- A call free in `s` stays free once a part is appended. -/
theorem FreeCall.appendPart {s : Sequence} {idx f : Nat} (free : s.FreeCall idx f)
    (stamp : Nat) (part : Sequence) : (s.appendPart stamp part).FreeCall idx f := by
  obtain ⟨bound, fn, untaken⟩ := free
  have callsEq : (s.appendPart stamp part).calls.toList =
      s.calls.toList ++ part.calls.toList.map (Call.shift s.size s.slots.size stamp) := by
    simp [appendPart_calls]
  have inCalls : idx < s.calls.toList.length := by simpa [size] using bound
  refine ⟨by rw [size_appendPart]; omega, ?_, ?_⟩
  · rw [callsEq, List.getD_eq_getElem?_getD, List.getElem?_append_left inCalls,
      ← List.getD_eq_getElem?_getD]
    exact fn
  · rw [callsEq, modesOf_append, untaken, modesOf_shift_of_lt bound]
    rfl

/-- The last call of a disciplined part is free once the part is appended. -/
theorem Disciplined.freeCall_appendPart {s part : Sequence} (disciplined : s.Disciplined g)
    (partDisciplined : part.Disciplined g) {f : Nat} (last : part.lastFn? = some f)
    (stamp : Nat) : (s.appendPart stamp part).FreeCall (s.size + part.size - 1) f := by
  obtain ⟨nonempty, fn, untaken⟩ := partDisciplined.freeCall_last last
  simp only [size] at nonempty
  have callsEq : (s.appendPart stamp part).calls.toList =
      s.calls.toList ++ part.calls.toList.map (Call.shift s.calls.toList.length s.slots.size stamp) := by
    simp [appendPart_calls, size]
  have position : s.size + part.size - 1 = (part.size - 1) + s.calls.toList.length := by
    simp only [size, Array.length_toList]
    omega
  refine ⟨by rw [size_appendPart]; simp only [size]; omega, ?_, ?_⟩
  · rw [callsEq, position, fn_getD_shift (by simp only [size, Array.length_toList]; omega)]
    exact fn
  · rw [callsEq, modesOf_append, position, modesOf_shift_add, untaken,
      disciplined.admitted.modesOf_eq_nil (by omega)]
    rfl

/-- A free call stays free whatever parts are appended. -/
theorem FreeCall.foldl_appendPart {s : Sequence} {idx f : Nat} (free : s.FreeCall idx f)
    (stamp : Nat) (parts : List Sequence) :
    (parts.foldl (Sequence.appendPart stamp) s).FreeCall idx f := by
  induction parts generalizing s with
  | nil => exact free
  | cons part rest ih => exact ih (free.appendPart stamp part)

-- Folding parts onto a sequence: the last call of each part is free, at its place.
private theorem foldl_appendPart_freeCall (stamp : Nat) {parts : List Sequence}
    (all : ∀ q ∈ parts, q.Disciplined g) :
    ∀ {s : Sequence}, s.Disciplined g → ∀ {i : Nat} {q : Sequence} {f : Nat},
      parts[i]? = some q → q.lastFn? = some f →
        (parts.foldl (Sequence.appendPart stamp) s).FreeCall
          ((Api.lastCallsFrom s.size parts).getD i 0) f := by
  induction parts with
  | nil => intro s _ i q f found; simp at found
  | cons part rest ih =>
    intro s disciplined i q f found last
    have rest' : ∀ q ∈ rest, q.Disciplined g :=
      fun q member => all q (List.mem_cons_of_mem _ member)
    have partDisciplined := all part List.mem_cons_self
    rw [List.foldl_cons]
    cases i with
    | zero =>
      -- the first part's last call, kept free by every later part
      cases found
      exact (disciplined.freeCall_appendPart partDisciplined last stamp).foldl_appendPart stamp rest
    | succ i =>
      have := ih rest' (disciplined.appendPart partDisciplined stamp) (i := i) found last
      rw [size_appendPart] at this
      exact this

/-- The last call of each disciplined part is free in the merge, at the place `lastCallsFrom`
gives it. -/
theorem merge_freeCall (stamp : Nat) {parts : List Sequence} (all : ∀ q ∈ parts, q.Disciplined g)
    {i : Nat} {q : Sequence} {f : Nat} (found : parts[i]? = some q) (last : q.lastFn? = some f) :
    (merge stamp parts).FreeCall ((Api.lastCallsFrom 0 parts).getD i 0) f := by
  cases parts with
  | nil => simp at found
  | cons first rest =>
    have rest' : ∀ q ∈ rest, q.Disciplined g :=
      fun q member => all q (List.mem_cons_of_mem _ member)
    have firstDisciplined := all first List.mem_cons_self
    simp only [merge, Api.lastCallsFrom, Nat.zero_add]
    cases i with
    | zero =>
      cases found
      exact (firstDisciplined.freeCall_last last).foldl_appendPart stamp rest
    | succ i => exact foldl_appendPart_freeCall stamp rest' firstDisciplined found last

end Sequence

/-- A result that no call takes is not moved. -/
theorem not_moves_of_modesOf_eq_nil {calls : List Call} {j : Nat} (untaken : modesOf calls j = []) :
    ¬ Moves calls j := by
  rintro ⟨c, member, moved⟩
  have taken : Access.move ∈ modesOf calls j :=
    List.mem_flatMap.mpr ⟨c, member, Call.mem_modesOn.mpr moved⟩
  rw [untaken] at taken
  cases taken

namespace Api

variable {api : Api}

theorem lastCallsFrom_ge {parts : List Sequence} (nonempty : ∀ q ∈ parts, 0 < q.size) :
    ∀ (offset i : Nat), i < parts.length → offset ≤ (lastCallsFrom offset parts).getD i 0 := by
  induction parts with
  | nil => intro offset i bound; cases bound
  | cons part rest ih =>
    intro offset i bound
    have positive := nonempty part List.mem_cons_self
    cases i with
    | zero =>
      simp only [lastCallsFrom, List.getD_cons_zero]
      omega
    | succ i =>
      have later := ih (fun q member => nonempty q (List.mem_cons_of_mem _ member))
        (offset + part.size) i (by simpa using bound)
      simp only [lastCallsFrom, List.getD_cons_succ]
      omega

/-- Distinct nonempty parts end at distinct places of their merge. -/
theorem lastCallsFrom_injective {parts : List Sequence} (nonempty : ∀ q ∈ parts, 0 < q.size) :
    ∀ {offset i i' : Nat}, i < parts.length → i' < parts.length →
      (lastCallsFrom offset parts).getD i 0 = (lastCallsFrom offset parts).getD i' 0 → i = i' := by
  induction parts with
  | nil => intro offset i i' bound; cases bound
  | cons part rest ih =>
    intro offset i i' bound bound' same
    have positive := nonempty part List.mem_cons_self
    have rest' : ∀ q ∈ rest, 0 < q.size := fun q member => nonempty q (List.mem_cons_of_mem _ member)
    -- the first part ends before every later part starts
    cases i with
    | zero =>
      cases i' with
      | zero => rfl
      | succ i' =>
        have later := lastCallsFrom_ge rest' (offset + part.size) i' (by simpa using bound')
        simp only [lastCallsFrom, List.getD_cons_zero, List.getD_cons_succ] at same
        omega
    | succ i =>
      cases i' with
      | zero =>
        have later := lastCallsFrom_ge rest' (offset + part.size) i (by simpa using bound)
        simp only [lastCallsFrom, List.getD_cons_zero, List.getD_cons_succ] at same
        omega
      | succ i' =>
        simp only [lastCallsFrom, List.getD_cons_succ] at same
        exact congrArg (· + 1) (ih rest' (by simpa using bound) (by simpa using bound') same)

/-- The target's call being assembled after the parameters before `k`: the sequence is ready for
the call with the arguments so far, and each result they take is the last call of the part of a
parameter resolved before `k`. -/
structure Assembling (api : Api) (target : Nat) (parts : List Sequence) (resolved : List Resolved)
    (k : Nat) (st : Sequence × List Source) : Prop where
  prepared : (Sequence.merge 0 parts).Prepared api.graph st.1
    ⟨target, st.2, (api.catalog.sig target).output.isSome, 0⟩
  arity : st.2.length = k
  takes : ∀ a ∈ st.2, ∀ j m, a.use? = some (j, m) →
    ∃ r ∈ resolved, r.param < k ∧ j = (lastCallsFrom 0 parts).getD r.part 0

/-- The merge of the parts, with the target's unsafe mark or trait, is where assembling starts. -/
theorem assembling_start {target : Nat} {parts : List Sequence} {resolved : List Resolved}
    {merged : Sequence} (calls : merged.calls = (Sequence.merge 0 parts).calls)
    (slots : merged.slots = (Sequence.merge 0 parts).slots)
    (usage : merged.usage = (Sequence.merge 0 parts).usage) :
    Assembling api target parts resolved 0 (merged, []) where
  prepared := (Sequence.Prepared.start _ _ _ _).frame calls slots usage
  arity := rfl
  takes := by simp

section Assemble

variable {target : Nat} {parts : List Sequence} {resolved : List Resolved}

/-- Binding the next parameter keeps the call being assembled ready, when the resolution is
complete and the target encodable. -/
theorem Assembling.bindAssembled (built : api.graph = Graph.build api.catalog)
    (encodable : api.Encodable target)
    (resolution : api.Resolution target (api.catalog.sig target).params.length parts resolved true)
    {k : Nat} (bound : k < (api.catalog.sig target).params.length) {st : Sequence × List Source}
    (assembling : Assembling api target parts resolved k st) :
    Assembling api target parts resolved (k + 1)
      (api.bindAssembled target resolved (lastCallsFrom 0 parts) st k) := by
  obtain ⟨seq, args⟩ := st
  obtain ⟨prepared, arity, takes⟩ := assembling
  have partsDisciplined : ∀ q ∈ parts, q.Disciplined api.graph :=
    fun q member => (resolution.mem_parts member).elim fun _ ⟨_, supplies⟩ => supplies.1
  have nonempty : ∀ q ∈ parts, 0 < q.size := by
    intro q member
    obtain ⟨r, -, -, p, last, -⟩ := resolution.mem_parts member
    exact (Sequence.lastFn?_eq_some last).1
  unfold Api.bindAssembled
  dsimp only
  split
  · -- a resolved parameter takes the last call of its part, which nothing takes yet
    rename_i r found
    have member := List.mem_of_find?_eq_some found
    have param : r.param = k := by simpa using List.find?_some found
    obtain ⟨q, part, disciplined, p, last, between⟩ := resolution.supplies r member
    have free := Sequence.merge_freeCall 0 partsDisciplined part last
    obtain ⟨edgeBound, edgeEq, -⟩ := edge_of_mem_between built between
    have fresh : ∀ a ∈ args, ∀ m,
        a.use? ≠ some ((lastCallsFrom 0 parts).getD r.part 0, m) := by
      intro a taken m use
      obtain ⟨r', member', earlier, same⟩ := takes a taken _ m use
      have samePart : r.part = r'.part := lastCallsFrom_injective nonempty
        (resolution.part_lt member) (resolution.part_lt member') same
      have := resolution.eq_of_part member member' samePart
      subst this
      omega
    have used := prepared.use (by simpa [Sequence.size] using free.1) edgeBound
      (by rw [free.2.1, arity, ← param]; exact edgeEq) rfl
      (not_moves_of_modesOf_eq_nil free.2.2) fresh
    have takes' : ∀ a ∈ args ++ [.result ((lastCallsFrom 0 parts).getD r.part 0)
        (api.graph.edge r.edge).link.mode (some r.edge)], ∀ j m, a.use? = some (j, m) →
        ∃ r ∈ resolved, r.param < k + 1 ∧ j = (lastCallsFrom 0 parts).getD r.part 0 := by
      intro a taken j m use
      rcases List.mem_append.mp taken with old | new
      · obtain ⟨r', member', earlier, same⟩ := takes a old j m use
        exact ⟨r', member', by omega, same⟩
      · rw [List.mem_singleton.mp new] at use
        simp only [Source.use?, Option.some.injEq, Prod.mk.injEq] at use
        exact ⟨r, member, by omega, use.1.symm⟩
    have arity' : (args ++ [Source.result ((lastCallsFrom 0 parts).getD r.part 0)
        (api.graph.edge r.edge).link.mode (some r.edge)]).length = k + 1 := by simp [arity]
    split
    · exact ⟨used.frame rfl rfl rfl, arity', takes'⟩
    · exact ⟨used.frame rfl rfl rfl, arity', takes'⟩
  · -- any other parameter is fuzzable, and being encodable it gets a slot of its own
    rename_i none
    have notResolved : ∀ r ∈ resolved, r.param ≠ k := by
      intro r member same
      have := List.find?_eq_none.mp none r member
      simp [same] at this
    have fuzzable : (api.paramClass target k).fuzzable = true := by
      cases h : (api.paramClass target k).fuzzable
      · obtain ⟨r, member, param⟩ := resolution.covered rfl k bound h
        exact absurd param (notResolved r member)
      · rfl
    have kind : (api.paramClass target k).kind = .fixed ∨
        (api.paramClass target k).kind = .variable := by
      have encoded := encodable k bound
      simp only [FuzzClass.fuzzable, bne_iff_ne, ne_eq] at fuzzable
      cases h : (api.paramClass target k).kind <;> simp_all
    refine ⟨prepared.addSlot kind _, by simp [arity], ?_⟩
    intro a taken j m use
    rcases List.mem_append.mp taken with old | new
    · obtain ⟨r', member', earlier, same⟩ := takes a old j m use
      exact ⟨r', member', by omega, same⟩
    · rw [List.mem_singleton.mp new] at use
      cases use

-- The target's call assembled on any sequence with the calls, slots and usage of the merge.
private theorem append_assembled (built : api.graph = Graph.build api.catalog)
    (encodable : api.Encodable target)
    (resolution :
      api.Resolution target (api.catalog.sig target).params.length parts resolved true)
    {merged : Sequence} (calls : merged.calls = (Sequence.merge 0 parts).calls)
    (slots : merged.slots = (Sequence.merge 0 parts).slots)
    (usage : merged.usage = (Sequence.merge 0 parts).usage) :
    (((List.range (api.catalog.sig target).params.length).foldl
        (api.bindAssembled target resolved (lastCallsFrom 0 parts)) (merged, [])).1.append
      ⟨target, ((List.range (api.catalog.sig target).params.length).foldl
        (api.bindAssembled target resolved (lastCallsFrom 0 parts)) (merged, [])).2,
        (api.catalog.sig target).output.isSome, 0⟩).Disciplined api.graph := by
  have mergedDisciplined := Sequence.merge_disciplined 0
    (fun q member => (resolution.mem_parts member).elim fun _ ⟨_, supplies⟩ => supplies.1)
  have ready := foldl_range_invariant (Assembling api target parts resolved)
    (assembling_start calls slots usage)
    (fun k st bound assembling => assembling.bindAssembled built encodable resolution bound) rfl
  exact mergedDisciplined.append_prepared ready.prepared

/-- The assembled sequence is disciplined and ends in its target, when the resolution is
complete and the target encodable. -/
theorem assemble_disciplined (built : api.graph = Graph.build api.catalog)
    (encodable : api.Encodable target)
    (resolution :
      api.Resolution target (api.catalog.sig target).params.length parts resolved true) :
    (api.assemble target parts resolved).Disciplined api.graph ∧
      (api.assemble target parts resolved).lastFn? = some target := by
  unfold assemble
  dsimp only
  refine ⟨?_, Sequence.lastFn?_append _ _⟩
  -- the unsafe mark and the trait leave calls, slots and usage as they were
  split <;> split <;> exact append_assembled built encodable resolution rfl rfl rfl

end Assemble

end Api

end DriverSynth
