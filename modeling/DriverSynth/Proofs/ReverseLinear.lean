import DriverSynth.Proofs.Ending
import Mathlib.Data.List.Nodup

/-! # Reverse construction takes every result once

A sequence is linear (`Sequence.Linear`) when the result of every call but the last is taken by
exactly one binding and that of the last by none. A merge of linear parts takes every result once
but each part's last (`Sequence.merge_takenExcept`), and the target's call takes each of those
once (`Api.modesOn_assembled`), so reverse construction builds linear sequences
(`Api.reverse?_builtFor`), which have no dead call (`Sequence.Linear.isDead_eq_false`).
-/

namespace DriverSynth

theorem Usage.useCount_foldl_use (modes : List Access) (u : Usage) :
    (modes.foldl Usage.use u).useCount = u.useCount + modes.length := by
  induction modes generalizing u with
  | nil => rfl
  | cons mode rest ih =>
    rw [List.foldl_cons, ih, List.length_cons]
    -- every use counts one, whatever its mode
    have counted : (u.use mode).useCount = u.useCount + 1 := by cases mode <;> rfl
    omega

/-- A result is used as often as bindings take it. -/
theorem Usage.useCount_summary (modes : List Access) :
    (Usage.summary modes).useCount = modes.length := by
  rw [Usage.summary, Usage.useCount_foldl_use]
  exact Nat.zero_add _

namespace Sequence

variable {g : Graph}

/-- Every call but the last has its result taken by exactly one binding, the last by none. -/
def Linear (s : Sequence) : Prop :=
  ∀ j < s.size, (modesOf s.calls.toList j).length = if j + 1 = s.size then 0 else 1

/-- The calls listed in `untaken` are calls of the sequence whose results no binding takes; the
result of every other call is taken by exactly one binding. -/
structure TakenExcept (s : Sequence) (untaken : List Nat) : Prop where
  lt_size : ∀ u ∈ untaken, u < s.size
  taken : ∀ j < s.size, (modesOf s.calls.toList j).length = if j ∈ untaken then 0 else 1

/-- A disciplined linear sequence has no dead call: every result but the last is used. -/
theorem Linear.isDead_eq_false {s : Sequence} (linear : s.Linear) (disciplined : s.Disciplined g) :
    s.isDead = false := by
  have alive : ∀ j, j + 1 < s.size → (s.usage.getD j default).useCount = 1 := by
    intro j before
    rw [disciplined.usage_getD (by omega), Usage.useCount_summary, linear j (by omega),
      if_neg (by omega)]
  unfold isDead deadCalls
  rcases Nat.lt_or_ge 1 s.size with several | _
  · -- only the last call may leave its result unused, and `dropLast` leaves it out
    obtain ⟨n, sized⟩ : ∃ n, s.size = n + 1 := ⟨s.size - 1, by omega⟩
    rw [sized, List.range_succ, List.map_append, List.map_singleton, List.dropLast_concat,
      Bool.and_eq_false_iff, List.any_eq_false]
    right
    intro dead member
    obtain ⟨j, below, rfl⟩ := List.mem_map.mp member
    rw [List.mem_range] at below
    rw [alive j (by omega)]
    simp
  · simp only [Bool.and_eq_false_iff, decide_eq_false_iff_not]
    left
    omega

/-- A linear sequence with a call takes the result of every call but its last. -/
theorem Linear.takenExcept {s : Sequence} (linear : s.Linear) (nonempty : 0 < s.size) :
    s.TakenExcept [s.size - 1] where
  lt_size := by
    intro u member
    rw [List.mem_singleton.mp member]
    omega
  taken := by
    intro j bound
    rw [linear j bound]
    simp only [List.mem_singleton]
    split <;> split <;> omega

/-- Appending a linear part keeps the results taken where they were: those of the first
sequence by its own bindings, those of the part by the part's, and the part's last result stays
untaken. -/
theorem TakenExcept.appendPart {s part : Sequence} {untaken : List Nat}
    (taken : s.TakenExcept untaken) (admitted : Admitted g s.calls.toList) (linear : part.Linear)
    (nonempty : 0 < part.size) (stamp : Nat) :
    (s.appendPart stamp part).TakenExcept (untaken ++ [s.size + part.size - 1]) where
  lt_size := by
    intro u member
    rw [size_appendPart]
    rcases List.mem_append.mp member with old | last
    · have := taken.lt_size u old
      omega
    · rw [List.mem_singleton.mp last]
      omega
  taken := by
    intro j bound
    rw [size_appendPart] at bound
    have calls : (s.appendPart stamp part).calls.toList =
        s.calls.toList ++ part.calls.toList.map (Call.shift s.size s.slots.size stamp) := by
      simp [appendPart_calls]
    rw [calls, modesOf_append]
    by_cases before : j < s.size
    · -- a call of `s`: the part's calls take nothing of it
      rw [modesOf_shift_of_lt before, List.append_nil, taken.taken j before]
      have notLast : j ≠ s.size + part.size - 1 := by omega
      simp [notLast]
    · -- a call of the part, taken as in the part
      obtain ⟨i, rfl⟩ : ∃ i, j = i + s.size := ⟨j - s.size, by omega⟩
      have past : s.calls.toList.length ≤ i + s.size := by simp [size]
      rw [admitted.modesOf_eq_nil past, List.nil_append, modesOf_shift_add, linear i (by omega)]
      have notOld : i + s.size ∉ untaken := fun member => by
        have := taken.lt_size _ member
        omega
      simp only [List.mem_append, notOld, false_or, List.mem_singleton]
      split <;> split <;> omega

theorem TakenExcept.foldl_appendPart (stamp : Nat) {parts : List Sequence}
    (each : ∀ q ∈ parts, q.Disciplined g ∧ q.Linear ∧ 0 < q.size) :
    ∀ {s : Sequence} {untaken : List Nat}, s.Disciplined g → s.TakenExcept untaken →
      (parts.foldl (Sequence.appendPart stamp) s).TakenExcept
        (untaken ++ Api.lastCallsFrom s.size parts) := by
  induction parts with
  | nil =>
    intro s untaken _ taken
    simpa [Api.lastCallsFrom] using taken
  | cons part rest ih =>
    intro s untaken disciplined taken
    obtain ⟨partDisciplined, linear, nonempty⟩ := each part List.mem_cons_self
    have next := ih (fun q member => each q (List.mem_cons_of_mem _ member))
      (disciplined.appendPart partDisciplined stamp)
      (taken.appendPart disciplined.admitted linear nonempty stamp)
    rw [size_appendPart, List.append_assoc] at next
    simpa [Api.lastCallsFrom] using next

/-- A merge of disciplined linear parts takes every result once, but the last of each part. -/
theorem merge_takenExcept (stamp : Nat) {parts : List Sequence}
    (each : ∀ q ∈ parts, q.Disciplined g ∧ q.Linear ∧ 0 < q.size) :
    (merge stamp parts).TakenExcept (Api.lastCallsFrom 0 parts) := by
  cases parts with
  | nil => exact ⟨by simp [Api.lastCallsFrom], fun j bound => by simp [merge, size] at bound⟩
  | cons first rest =>
    obtain ⟨disciplined, linear, nonempty⟩ := each first List.mem_cons_self
    have merged := TakenExcept.foldl_appendPart stamp
      (fun q member => each q (List.mem_cons_of_mem _ member)) disciplined
      (linear.takenExcept nonempty)
    simpa [merge, Api.lastCallsFrom] using merged

/-- One more call that takes each untaken result once, and nothing else, leaves a linear
sequence. -/
theorem TakenExcept.linear_push {s q : Sequence} {untaken : List Nat}
    (taken : s.TakenExcept untaken) (admitted : Admitted g s.calls.toList) {c : Call}
    (calls : q.calls = s.calls.push c)
    (once : ∀ j, (c.modesOn j).length = if j ∈ untaken then 1 else 0) : q.Linear := by
  intro j bound
  have sized : q.size = s.size + 1 := by simp [size, calls]
  rw [calls, Array.toList_push, modesOf_append, modesOf_singleton, List.length_append, once j,
    sized]
  rcases Nat.lt_or_ge j s.size with before | last
  · rw [taken.taken j before]
    by_cases member : j ∈ untaken <;> simp [member] <;> omega
  · -- the new call itself: nothing takes its result, and it is no untaken call
    have same : j = s.size := by
      rw [sized] at bound
      omega
    subst same
    have past : s.calls.toList.length ≤ s.size := by simp [size]
    have notUntaken : s.size ∉ untaken := fun member =>
      Nat.lt_irrefl _ (taken.lt_size _ member)
    rw [admitted.modesOf_eq_nil past, if_neg notUntaken, if_pos rfl]
    rfl

end Sequence

namespace Api

variable {api : Api} {known : Array Bool} {P : Nat → Sequence → Prop}

theorem length_lastCallsFrom (offset : Nat) (parts : List Sequence) :
    (lastCallsFrom offset parts).length = parts.length := by
  induction parts generalizing offset with
  | nil => rfl
  | cons part rest ih => simp [lastCallsFrom, ih]

/-- Distinct nonempty parts end at distinct calls of their merge. -/
theorem nodup_lastCallsFrom {parts : List Sequence} (nonempty : ∀ q ∈ parts, 0 < q.size)
    (offset : Nat) : (lastCallsFrom offset parts).Nodup := by
  rw [List.nodup_iff_injective_getElem]
  rintro ⟨i, bound⟩ ⟨i', bound'⟩ same
  dsimp only at same
  have length := length_lastCallsFrom offset parts
  apply Fin.ext
  apply lastCallsFrom_injective nonempty (by omega) (by omega)
  rw [List.getD_eq_getElem?_getD, List.getD_eq_getElem?_getD, List.getElem?_eq_getElem bound,
    List.getElem?_eq_getElem bound', Option.getD_some, Option.getD_some]
  exact same

-- Counting the parameters resolved below `k + 1` counts those below `k` and the one at `k`.
private theorem countP_param_lt_succ (resolved : List Resolved) (k : Nat) (Q : Resolved → Prop)
    [DecidablePred Q] :
    resolved.countP (fun r => r.param < k + 1 ∧ Q r) =
      resolved.countP (fun r => r.param < k ∧ Q r) +
        resolved.countP (fun r => r.param = k ∧ Q r) := by
  induction resolved with
  | nil => rfl
  | cons r rest ih =>
    simp only [List.countP_cons, ih]
    by_cases holds : Q r
    · simp only [holds, and_true, decide_eq_true_eq]
      split <;> split <;> split <;> omega
    · simp [holds]

-- A parameter resolved once: among distinct parameters, only `r` is at its own.
private theorem countP_param_eq {resolved : List Resolved}
    (distinct : (resolved.map (·.param)).Nodup)
    {r : Resolved} (member : r ∈ resolved) (Q : Resolved → Prop) [DecidablePred Q] :
    resolved.countP (fun r' => r'.param = r.param ∧ Q r') = if Q r then 1 else 0 := by
  induction resolved with
  | nil => cases member
  | cons r' rest ih =>
    rw [List.map_cons, List.nodup_cons] at distinct
    simp only [List.countP_cons, decide_eq_true_eq]
    rcases List.mem_cons.mp member with rfl | later
    · -- no later parameter is the same
      have none : rest.countP (fun r' => r'.param = r.param ∧ Q r') = 0 := by
        rw [List.countP_eq_zero]
        intro r'' member'' holds
        simp only [decide_eq_true_eq] at holds
        exact distinct.1 (holds.1 ▸ List.mem_map_of_mem member'')
      rw [none]
      simp
    · have other : r'.param ≠ r.param := fun same => distinct.1 (same ▸ List.mem_map_of_mem later)
      rw [ih distinct.2 later]
      simp [other]

/-- Binding the parameters before `k` takes the result of call `j` once for each parameter
resolved before `k` whose part ends at `j`. -/
theorem bindAssembled_modesOn {target : Nat} {resolved : List Resolved} {lastCall : List Nat}
    (distinct : (resolved.map (·.param)).Nodup) (j k : Nat) (merged : Sequence) :
    ((((List.range k).foldl (api.bindAssembled target resolved lastCall) (merged, [])).2).filterMap
      (Source.modeOn? j)).length =
      resolved.countP fun r => r.param < k ∧ lastCall.getD r.part 0 = j := by
  refine foldl_range_invariant (fun k (st : Sequence × List Source) =>
    (st.2.filterMap (Source.modeOn? j)).length =
      resolved.countP fun r => r.param < k ∧ lastCall.getD r.part 0 = j) (by simp) ?_ rfl
  rintro k ⟨seq, args⟩ _ counted
  rw [countP_param_lt_succ]
  unfold bindAssembled
  dsimp only at counted ⊢
  split
  · -- the parameter takes the last call of its part
    rename_i r found
    have param : r.param = k := by simpa using List.find?_some found
    subst param
    rw [countP_param_eq distinct (List.mem_of_find?_eq_some found), ← counted]
    have taken : ([Source.result (lastCall.getD r.part 0) (api.graph.edge r.edge).link.mode
        (some r.edge)].filterMap (Source.modeOn? j)).length =
        if lastCall.getD r.part 0 = j then 1 else 0 := by
      by_cases same : lastCall.getD r.part 0 = j <;>
        simp [Source.modeOn?, same, -List.getD_eq_getElem?_getD]
    split <;> rw [List.filterMap_append, List.length_append, taken]
  · -- no parameter resolved here: a slot, which takes no result
    rename_i notFound
    have none : resolved.countP (fun r => r.param = k ∧ lastCall.getD r.part 0 = j) = 0 := by
      rw [List.countP_eq_zero]
      intro r member holds
      simp only [decide_eq_true_eq] at holds
      have := List.find?_eq_none.mp notFound r member
      simp [holds.1] at this
    rw [none, ← counted]
    simp [Source.modeOn?, List.filterMap_append]

/-- The target's call takes the last result of each part exactly once, and no other result. -/
theorem modesOn_assembled {target : Nat} {parts : List Sequence} {resolved : List Resolved}
    {ok : Bool}
    (gathered :
      api.Gathered known P target (api.catalog.sig target).params.length parts resolved ok)
    (nonempty : ∀ q ∈ parts, 0 < q.size) (merged : Sequence) (j : Nat) :
    ((((List.range (api.catalog.sig target).params.length).foldl
      (api.bindAssembled target resolved (lastCallsFrom 0 parts)) (merged, [])).2).filterMap
        (Source.modeOn? j)).length = if j ∈ lastCallsFrom 0 parts then 1 else 0 := by
  have distinct : (resolved.map (·.param)).Nodup := gathered.params_lt.imp Nat.ne_of_lt
  rw [bindAssembled_modesOn distinct, ← (nodup_lastCallsFrom nonempty 0).count]
  -- every resolved parameter is a parameter, and the parts of the resolved are all the parts
  have below : resolved.countP (fun r => r.param < (api.catalog.sig target).params.length ∧
      (lastCallsFrom 0 parts).getD r.part 0 = j) =
      (resolved.map (·.part)).countP (fun i => (lastCallsFrom 0 parts).getD i 0 = j) := by
    rw [List.countP_map]
    exact List.countP_congr fun r member => by simp [gathered.param_lt r member]
  have lasts : (List.range parts.length).map (fun i => (lastCallsFrom 0 parts).getD i 0) =
      lastCallsFrom 0 parts := by
    apply List.ext_getElem (by simp [length_lastCallsFrom])
    intro i _ bound
    rw [List.getElem_map, List.getElem_range, List.getD_eq_getElem?_getD,
      List.getElem?_eq_getElem bound, Option.getD_some]
  have counted : (lastCallsFrom 0 parts).count j =
      (List.range parts.length).countP fun i => (lastCallsFrom 0 parts).getD i 0 = j := by
    conv_lhs => rw [← lasts]
    rw [List.count_eq_countP, List.countP_map]
    exact List.countP_congr fun i _ => by simp
  rw [below, gathered.parts_eq, counted]

/-- What reverse construction builds for a function `f`, when it may call the functions marked
in `known`: a disciplined, linear sequence that ends in `f` and calls marked functions only. -/
structure BuiltFor (api : Api) (known : Array Bool) (f : Nat) (q : Sequence) : Prop where
  disciplined : q.Disciplined api.graph
  last : q.lastFn? = some f
  linear : q.Linear
  marked : ∀ g ∈ q.fns, known.getD g false = true

/-- Assembling keeps what reverse construction builds: the merge of linear parts leaves the last
result of each part untaken, and the target's call takes each of them once. -/
theorem builtFor_assembleKeeps (built : api.graph = Graph.build api.catalog)
    (marks : api.MarksEncodable known) : api.AssembleKeeps known (api.BuiltFor known) := by
  intro target parts resolved marked gathered _
  have each : ∀ q ∈ parts, q.Disciplined api.graph ∧ q.Linear ∧ 0 < q.size := by
    intro q member
    obtain ⟨r, -, p, -, -, -, builtFor⟩ := gathered.mem_parts member
    exact ⟨builtFor.disciplined, builtFor.linear, (Sequence.lastFn?_eq_some builtFor.last).1⟩
  obtain ⟨disciplined, last⟩ := assemble_disciplined built (marks target marked)
    (gathered.resolution fun _ _ builtFor => ⟨builtFor.disciplined, builtFor.last⟩)
  obtain ⟨merged, calls⟩ := assemble_calls target parts resolved
  refine ⟨disciplined, last, ?_, ?_⟩
  · exact (Sequence.merge_takenExcept 0 each).linear_push
      (Sequence.merge_disciplined 0 fun q member => (each q member).1).admitted calls
      (modesOn_assembled gathered (fun q member => (each q member).2.2) merged)
  · -- the parts call marked functions only, and the target is marked
    have fns :
        (api.assemble target parts resolved).fns = parts.flatMap Sequence.fns ++ [target] := by
      rw [← Sequence.fns_merge 0]
      simp [Sequence.fns, calls]
    intro g member
    rw [fns] at member
    rcases List.mem_append.mp member with inPart | isTarget
    · obtain ⟨q, partMember, called⟩ := List.mem_flatMap.mp inPart
      obtain ⟨r, -, p, -, -, -, builtFor⟩ := gathered.mem_parts partMember
      exact builtFor.marked g called
    · rw [List.mem_singleton.mp isTarget]
      exact marked

/-- Reverse construction builds, for a target, a disciplined linear sequence that ends in it and
calls constructible functions only. -/
theorem reverse?_builtFor (built : api.graph = Graph.build api.catalog) {t : Nat} {s : Sequence}
    (found : api.reverse? t = some s) : api.BuiltFor api.constructible t s :=
  (reverseWith_keeps (builtFor_assembleKeeps built constructible_marks) (api.size + 1) t _
    (ReverseMemo.keeps_new api _)).2.2 s found

end Api

end DriverSynth
