import DriverSynth.Proofs.Reverse

/-! # What reverse construction keeps in its memo

This module says once what the recursive calls can do to the memo, so that a property of what
reverse construction builds is proved by one step, the assembly. A memo keeps `P`
(`ReverseMemo.Keeps`) when every sequence it remembers has `P` of its target; when `assemble`
keeps `P` (`Api.AssembleKeeps`), so does reverse construction (`Api.reverseWith_keeps`), which also
returns the resolving marks as it found them.
-/

namespace DriverSynth

/-- Marking an unmarked function and unmarking it again leaves the marks as they were. -/
theorem setIfInBounds_unmark {xs : Array Bool} {i : Nat} (unmarked : xs.getD i false = false) :
    (xs.setIfInBounds i true).setIfInBounds i false = xs := by
  rw [Array.setIfInBounds_setIfInBounds]
  apply Array.ext (by simp)
  intro j _ bound
  rw [Array.getElem_setIfInBounds]
  split
  · rename_i same
    subst same
    rw [Array.getD_eq_getD_getElem?, Array.getElem?_eq_getElem bound, Option.getD_some] at unmarked
    exact unmarked.symm
  · rfl

namespace ReverseMemo

/-- A memo whose constructible marks are `known` and whose remembered sequences have property `P`
of their targets. -/
structure Keeps (known : Array Bool) (P : Nat → Sequence → Prop) (memo : ReverseMemo) : Prop where
  constructible_eq : memo.constructible = known
  built : ∀ f q, memo.built.getD f none = some q → P f q

variable {known : Array Bool} {P : Nat → Sequence → Prop} {memo : ReverseMemo}

theorem keeps_new (api : Api) (P : Nat → Sequence → Prop) :
    (new api).Keeps api.constructible P where
  constructible_eq := rfl
  built := by
    intro f q found
    simp only [new, Array.getD_eq_getD_getElem?, Array.getElem?_replicate] at found
    split at found <;> simp at found

/-- Marks of what is being resolved or unreachable do not touch what a memo keeps. -/
theorem Keeps.marks (keeps : memo.Keeps known P) (resolving unreachable : Array Bool) :
    ({ memo with resolving, unreachable } : ReverseMemo).Keeps known P :=
  ⟨keeps.constructible_eq, keeps.built⟩

/-- Remembering a sequence with `P` of its target keeps `P`. -/
theorem Keeps.remember (keeps : memo.Keeps known P) {target : Nat} {q : Sequence}
    (holds : P target q) :
    ({ memo with built := memo.built.setIfInBounds target (some q) } : ReverseMemo).Keeps known
      P where
  constructible_eq := keeps.constructible_eq
  built := by
    intro f q' found
    simp only [getD_setIfInBounds] at found
    split at found
    · rename_i same
      cases found
      rw [← same.1]
      exact holds
    · exact keeps.built f q' found

/-- A builder that, from a memo that keeps `P`, returns one that keeps `P` with the same marks of
functions being resolved, and builds for a function a sequence with `P` of it. -/
def BuildKeeps (known : Array Bool) (P : Nat → Sequence → Prop)
    (build : Nat → ReverseMemo → Option Sequence × ReverseMemo × Bool) : Prop :=
  ∀ f memo, memo.Keeps known P →
    (build f memo).2.1.Keeps known P ∧ (build f memo).2.1.resolving = memo.resolving ∧
      ∀ q, (build f memo).1 = some q → P f q

end ReverseMemo

namespace Api

variable {api : Api} {known : Array Bool} {P : Nat → Sequence → Prop}
  {build : Nat → ReverseMemo → Option Sequence × ReverseMemo × Bool}

/-- `q` can feed parameter `k` of `target` along `edge`: it has `P` of a function other than the
target, marked in `known`, from which `edge` runs into the parameter. -/
def Feeds (api : Api) (known : Array Bool) (P : Nat → Sequence → Prop) (target k : Nat)
    (q : Sequence) (edge : Nat) : Prop :=
  ∃ p, p ≠ target ∧ known.getD p false = true ∧ edge ∈ api.graph.between p target k ∧ P p q

/-- The producer found for a parameter feeds it, and the search keeps `P` and the marks of the
functions being resolved. -/
theorem findProducer_keeps (builds : ReverseMemo.BuildKeeps known P build) (target k : Nat)
    (depends : Bool) {memo : ReverseMemo} (keeps : memo.Keeps known P) :
    (api.findProducer build target k depends memo).2.2.Keeps known P ∧
      (api.findProducer build target k depends memo).2.2.resolving = memo.resolving ∧
      ∀ q edge, (api.findProducer build target k depends memo).1 = some (q, edge) →
        api.Feeds known P target k q edge := by
  unfold findProducer
  refine foldl_invariant (fun (st : Option (Sequence × Nat) × Bool × ReverseMemo) =>
    st.2.2.Keeps known P ∧ st.2.2.resolving = memo.resolving ∧
    ∀ q edge, st.1 = some (q, edge) → api.Feeds known P target k q edge)
    ⟨keeps, rfl, by simp⟩ ?_ rfl
  rintro ⟨found, depends', memo'⟩ producer _ ⟨kept, frame, feeds⟩
  dsimp only at kept frame feeds ⊢
  split
  · exact ⟨kept, frame, feeds⟩
  rename_i candidate
  split
  · exact ⟨kept, frame, feeds⟩
  rename_i edge rest between
  split
  · exact ⟨kept, frame, feeds⟩
  have built := builds producer memo' kept
  generalize build producer memo' = answer at built ⊢
  obtain ⟨sub, memo'', dep⟩ := answer
  obtain ⟨kept', frame', holds⟩ := built
  dsimp only at kept' frame' holds ⊢
  cases sub with
  | some q =>
    -- the producer passed the checks of a candidate, and its sequence was built
    refine ⟨kept', frame'.trans frame, ?_⟩
    rintro q' edge' ⟨⟩
    simp only [Bool.or_eq_true, Bool.not_eq_true', beq_iff_eq, not_or, Bool.not_eq_false,
      kept.constructible_eq] at candidate
    exact ⟨producer, candidate.1.2, candidate.2, by rw [between]; exact List.mem_cons_self,
      holds q rfl⟩
  | none => exact ⟨kept', frame'.trans frame, feeds⟩

/-- What resolving the parameters of `target` before `k` has gathered: one part per resolved
parameter, the resolved parameters distinct, in order and before `k`, each part feeding its
parameter; while nothing failed, every parameter before `k` that is not fuzzable is resolved. -/
structure Gathered (api : Api) (known : Array Bool) (P : Nat → Sequence → Prop) (target k : Nat)
    (parts : List Sequence) (resolved : List Resolved) (ok : Bool) : Prop where
  parts_eq : resolved.map (·.part) = List.range parts.length
  params_lt : (resolved.map (·.param)).Pairwise (· < ·)
  param_lt : ∀ r ∈ resolved, r.param < k
  feeds : ∀ r ∈ resolved, ∃ q, parts[r.part]? = some q ∧ api.Feeds known P target r.param q r.edge
  covered : ok = true → ∀ k' < k, (api.paramClass target k').fuzzable = false →
    ∃ r ∈ resolved, r.param = k'

/-- Every part feeds the parameter resolved to it. -/
theorem Gathered.mem_parts {target k : Nat} {parts : List Sequence} {resolved : List Resolved}
    {ok : Bool} (gathered : api.Gathered known P target k parts resolved ok) {q : Sequence}
    (member : q ∈ parts) : ∃ r ∈ resolved, api.Feeds known P target r.param q r.edge := by
  obtain ⟨i, bound, rfl⟩ := List.mem_iff_getElem.mp member
  have listed : i ∈ resolved.map (·.part) := by
    rw [gathered.parts_eq]
    exact List.mem_range.mpr bound
  obtain ⟨r, resolvedMember, rfl⟩ := List.mem_map.mp listed
  obtain ⟨q, part, feeds⟩ := gathered.feeds r resolvedMember
  rw [List.getElem?_eq_getElem bound, Option.some.injEq] at part
  rw [part]
  exact ⟨r, resolvedMember, feeds⟩

/-- Resolving the parameters keeps `P` and the marks of the functions being resolved, and
gathers a part for each parameter that is not fuzzable, or fails. -/
theorem resolveParams_keeps (builds : ReverseMemo.BuildKeeps known P build) (target : Nat)
    {memo : ReverseMemo} (keeps : memo.Keeps known P) :
    (api.resolveParams build target memo).2.2.2.2.Keeps known P ∧
      (api.resolveParams build target memo).2.2.2.2.resolving = memo.resolving ∧
      api.Gathered known P target (api.catalog.sig target).params.length
        (api.resolveParams build target memo).1 (api.resolveParams build target memo).2.1
        (api.resolveParams build target memo).2.2.1 := by
  unfold resolveParams
  refine foldl_range_invariant
    (fun k (st : List Sequence × List Resolved × Bool × Bool × ReverseMemo) =>
      st.2.2.2.2.Keeps known P ∧ st.2.2.2.2.resolving = memo.resolving ∧
      api.Gathered known P target k st.1 st.2.1 st.2.2.1)
    ⟨keeps, rfl, rfl, by simp, by simp, by simp, by simp⟩ ?_ rfl
  rintro k ⟨parts, resolved, ok, depends, memo'⟩ _ ⟨kept, frame, gathered⟩
  dsimp only at kept frame gathered ⊢
  have earlier : ∀ r ∈ resolved, r.param < k + 1 := fun r member => by
    have := gathered.param_lt r member
    omega
  split
  · -- nothing to resolve: a failure was met, or the parameter is fuzzable
    rename_i skip
    refine ⟨kept, frame, gathered.parts_eq, gathered.params_lt, earlier, gathered.feeds, ?_⟩
    intro stillOk k' before notFuzzable
    simp only at stillOk
    rcases Nat.lt_succ_iff_lt_or_eq.mp before with below | rfl
    · exact gathered.covered stillOk k' below notFuzzable
    · simp [stillOk, notFuzzable] at skip
  have found := @findProducer_keeps api known P build builds target k depends memo' kept
  generalize api.findProducer build target k depends memo' = answer at found ⊢
  obtain ⟨found', depends', memo''⟩ := answer
  obtain ⟨kept', frame', feeds⟩ := found
  dsimp only at kept' frame' feeds ⊢
  rcases found' with _ | ⟨q, edge⟩
  · -- no producer: resolving fails
    exact ⟨kept', frame'.trans frame, gathered.parts_eq, gathered.params_lt, earlier,
      gathered.feeds, by simp⟩
  · -- the parameter takes the new part
    refine ⟨kept', frame'.trans frame, ?_, ?_, ?_, ?_, ?_⟩
    · rw [List.map_append, gathered.parts_eq, List.length_append, List.length_singleton,
        List.range_succ]
      rfl
    · rw [List.map_append, List.pairwise_append]
      exact ⟨gathered.params_lt, List.pairwise_singleton _ _, by
        intro a member b same
        obtain ⟨r, inResolved, rfl⟩ := List.mem_map.mp member
        rw [List.mem_singleton.mp same]
        exact gathered.param_lt r inResolved⟩
    · intro r member
      rcases List.mem_append.mp member with old | new
      · exact earlier r old
      · rw [List.mem_singleton.mp new]
        exact Nat.lt_succ_self k
    · intro r member
      rcases List.mem_append.mp member with old | new
      · obtain ⟨q', part, feeds'⟩ := gathered.feeds r old
        have bound : r.part < parts.length := by
          have := List.mem_map_of_mem (f := (·.part)) old
          rw [gathered.parts_eq] at this
          exact List.mem_range.mp this
        exact ⟨q', by rw [List.getElem?_append_left bound]; exact part, feeds'⟩
      · rw [List.mem_singleton.mp new]
        exact ⟨q, by simp, feeds q edge rfl⟩
    · intro stillOk k' before notFuzzable
      rcases Nat.lt_succ_iff_lt_or_eq.mp before with below | rfl
      · obtain ⟨r, member, param⟩ := gathered.covered stillOk k' below notFuzzable
        exact ⟨r, List.mem_append_left _ member, param⟩
      · exact ⟨_, List.mem_append_right _ (List.mem_singleton_self _), rfl⟩

/-- Binding a parameter of the target leaves the calls alone. -/
theorem bindAssembled_calls (target : Nat) (resolved : List Resolved) (lastCall : List Nat)
    (acc : Sequence × List Source) (k : Nat) :
    (api.bindAssembled target resolved lastCall acc k).1.calls = acc.1.calls := by
  unfold bindAssembled
  dsimp only
  split
  · split <;> rfl
  · rfl

/-- The assembled sequence is the merge of the parts followed by one call of the target, whose
arguments are those that binding its parameters in order gives. -/
theorem assemble_calls (target : Nat) (parts : List Sequence) (resolved : List Resolved) :
    ∃ merged : Sequence, (api.assemble target parts resolved).calls =
      (Sequence.merge 0 parts).calls.push ⟨target,
        ((List.range (api.catalog.sig target).params.length).foldl
          (api.bindAssembled target resolved (lastCallsFrom 0 parts)) (merged, [])).2,
        (api.catalog.sig target).output.isSome, 0⟩ := by
  unfold assemble
  dsimp only
  -- the unsafe mark and the trait leave the calls of the merge, and so does binding
  have marked : ∀ merged : Sequence, merged.calls = (Sequence.merge 0 parts).calls →
      ((List.range (api.catalog.sig target).params.length).foldl
        (api.bindAssembled target resolved (lastCallsFrom 0 parts)) (merged, [])).1.calls =
        (Sequence.merge 0 parts).calls := fun merged same =>
    foldl_invariant (fun st : Sequence × List Source => st.1.calls = (Sequence.merge 0 parts).calls)
      same (fun st k _ kept => (bindAssembled_calls target resolved _ st k).trans kept) rfl
  rw [Sequence.append_calls, marked]
  · exact ⟨_, rfl⟩
  · split <;> split <;> rfl

/-- `assemble` keeps `P`: a target marked in `known`, assembled from parts that feed the
parameters they resolve, with every other parameter fuzzable and at most one slot of variable
length, has `P` of it. -/
def AssembleKeeps (api : Api) (known : Array Bool) (P : Nat → Sequence → Prop) : Prop :=
  ∀ target parts resolved, known.getD target false = true →
    api.Gathered known P target (api.catalog.sig target).params.length parts resolved true →
    (api.assemble target parts resolved).varCount ≤ 1 →
    P target (api.assemble target parts resolved)

/-- Reverse construction keeps every property that `assemble` keeps: the memo it returns keeps
it, with the marks of the functions being resolved as it found them, and what it builds for a
target has it. -/
theorem reverseWith_keeps (closed : api.AssembleKeeps known P) :
    ∀ fuel, ReverseMemo.BuildKeeps known P (api.reverseWith fuel)
  | 0 => fun _ _ keeps => ⟨keeps, rfl, by simp [reverseWith]⟩
  | fuel + 1 => by
    intro target memo keeps
    rw [reverseWith]
    split
    · exact ⟨keeps, rfl, by simp⟩
    rename_i buildable
    split
    · -- built before: the memo holds it
      rename_i q found
      exact ⟨keeps, rfl, fun q' same => by cases same; exact keeps.built target q found⟩
    split
    · exact ⟨keeps, rfl, by simp⟩
    rename_i notResolving
    have marked : known.getD target false = true := by
      simp only [Bool.or_eq_true, Bool.not_eq_true', not_or] at buildable
      rw [← keeps.constructible_eq]
      simpa using buildable.1
    have gathered := @resolveParams_keeps api known P _ (reverseWith_keeps closed fuel) target _
      (keeps.marks (memo.resolving.setIfInBounds target true) memo.unreachable)
    dsimp only
    generalize api.resolveParams (api.reverseWith fuel) target
      { memo with resolving := memo.resolving.setIfInBounds target true } = result at gathered ⊢
    obtain ⟨parts, resolved, ok, depends, memo'⟩ := result
    obtain ⟨kept, frame, complete⟩ := gathered
    dsimp only at kept frame complete ⊢
    -- the target is unmarked as being resolved, and a failure marks it unreachable at most
    have restored : memo'.resolving.setIfInBounds target false = memo.resolving := by
      rw [frame]
      exact setIfInBounds_unmark (by simpa using notResolving)
    have failKeeps : ∀ unreachable : Array Bool,
        ({ memo' with resolving := memo'.resolving.setIfInBounds target false, unreachable } :
          ReverseMemo).Keeps known P :=
      kept.marks _
    split
    · exact ⟨by split <;> exact failKeeps _, by split <;> exact restored, by simp⟩
    rename_i stillOk
    have resolvedAll : ok = true := by simpa using stillOk
    subst resolvedAll
    split
    · exact ⟨by split <;> exact failKeeps _, by split <;> exact restored, by simp⟩
    · rename_i few
      have holds := closed target parts resolved marked complete (by omega)
      refine ⟨(failKeeps memo'.unreachable).remember holds, restored, ?_⟩
      rintro q ⟨⟩
      exact holds

/-- Parts gathered with the discipline, each ending in its producer, make a resolution. -/
theorem Gathered.resolution {target k : Nat} {parts : List Sequence} {resolved : List Resolved}
    {ok : Bool} (supplied : ∀ f q, P f q → q.Disciplined api.graph ∧ q.lastFn? = some f)
    (gathered : api.Gathered known P target k parts resolved ok) :
    api.Resolution target k parts resolved ok where
  parts_eq := gathered.parts_eq
  supplies := by
    intro r member
    obtain ⟨q, part, p, -, -, between, holds⟩ := gathered.feeds r member
    obtain ⟨disciplined, last⟩ := supplied p q holds
    exact ⟨q, part, disciplined, p, last, between⟩
  covered := gathered.covered

/-- Reverse construction builds disciplined sequences that end in their target, when the marked
functions are encodable. -/
theorem disciplined_assembleKeeps (built : api.graph = Graph.build api.catalog)
    (marks : api.MarksEncodable known) :
    api.AssembleKeeps known fun f q => q.Disciplined api.graph ∧ q.lastFn? = some f :=
  fun target _ _ marked gathered _ =>
    assemble_disciplined built (marks target marked) (gathered.resolution fun _ _ holds => holds)

/-- Reverse construction keeps the memo sound and builds, for a target, a disciplined sequence
that ends in it. -/
theorem reverseWith_sound (built : api.graph = Graph.build api.catalog) :
    ∀ fuel, api.BuildSound (api.reverseWith fuel) := by
  intro fuel target memo sound
  -- the memo's own marks are the known ones, and they are encodable
  have keeps : memo.Keeps memo.constructible
      fun f q => q.Disciplined api.graph ∧ q.lastFn? = some f := ⟨rfl, sound.built⟩
  obtain ⟨kept, -, builds⟩ :=
    reverseWith_keeps (disciplined_assembleKeeps built sound.encodable) fuel target memo keeps
  refine ⟨⟨?_, kept.built⟩, builds⟩
  rw [kept.constructible_eq]
  exact sound.encodable

end Api

end DriverSynth
