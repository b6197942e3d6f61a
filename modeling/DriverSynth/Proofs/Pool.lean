import DriverSynth.Proofs.ReverseMemo
import DriverSynth.Search.Generate
import DriverSynth.Search.Replay

/-! # What every pooled sequence satisfies

Every strategy fills the pool one sequence at a time: by admitting a call to a pooled or empty
sequence, to a merge of pooled sequences, or through reverse construction's memo. So a property
that the empty sequence has and admission keeps (`Api.AdmitClosed`), and merging too
(`Api.MergeClosed`), holds of every sequence a strategy pools (`Search.Keeps`, one lemma per
strategy). The borrow discipline is such a property: every sequence pooled by any run of strategies
keeps it (`Search.Reachable.pool_wellFormed`).
-/

namespace DriverSynth

namespace Api

/-- A property of sequences that the empty sequence has and admitting a call keeps. -/
structure AdmitClosed (api : Api) (P : Sequence → Prop) : Prop where
  empty : P {}
  extend : ∀ {q q' : Sequence} {f : Nat}, P q → api.extend? 0 q f = some q' → P q'

/-- A property that merging sequences keeps as well. -/
structure MergeClosed (api : Api) (P : Sequence → Prop) : Prop extends api.AdmitClosed P where
  merge : ∀ parts : List Sequence, (∀ q ∈ parts, P q) → P (Sequence.merge 0 parts)

end Api

namespace Search

/-- A search over `api` whose pooled sequences all have property `P`. -/
structure Keeps (api : Api) (P : Sequence → Prop) (s : Search) : Prop where
  api_eq : s.api = api
  pooled : ∀ q ∈ s.pool.toList, P q

/-- A search over `api` whose pool is `base` followed by sequences with property `P`: what a
strategy that only adds to the pool leaves of a pool `base`. -/
structure Grows (api : Api) (base : List Sequence) (P : Sequence → Prop) (s : Search) : Prop where
  api_eq : s.api = api
  pool_eq : ∃ more, s.pool.toList = base ++ more ∧ ∀ q ∈ more, P q

variable {api : Api} {P : Sequence → Prop} {s : Search}

theorem getD_mem_pool {i : Nat} (bound : i < s.pool.size) : s.pool.getD i {} ∈ s.pool.toList := by
  rw [Array.getD_eq_getD_getElem?, Array.getElem?_eq_getElem bound, Option.getD_some]
  exact Array.getElem_mem_toList bound

namespace Keeps

theorem push (keeps : s.Keeps api P) {q : Sequence} (holds : P q) : (s.push q).Keeps api P where
  api_eq := keeps.api_eq
  pooled := by
    intro q' member
    simp only [Search.push, Array.toList_push, List.mem_append, List.mem_singleton] at member
    rcases member with old | rfl
    · exact keeps.pooled q' old
    · exact holds

/-- A new pool of sequences with the property. -/
theorem withPool (keeps : s.Keeps api P) {pool : Array Sequence} (pooled : ∀ q ∈ pool.toList, P q) :
    ({ s with pool } : Search).Keeps api P :=
  ⟨keeps.api_eq, pooled⟩

theorem clearPool (keeps : s.Keeps api P) : s.clearPool.Keeps api P :=
  ⟨keeps.api_eq, by simp [Search.clearPool]⟩

theorem resetVisited (keeps : s.Keeps api P) : s.resetVisited.Keeps api P :=
  ⟨keeps.api_eq, keeps.pooled⟩

/-- A pooled sequence, or the empty one past the end of the pool. -/
theorem getD (keeps : s.Keeps api P) (empty : P {}) (i : Nat) : P (s.pool.getD i {}) := by
  rw [Array.getD_eq_getD_getElem?]
  cases found : s.pool[i]? with
  | none => exact empty
  | some q => exact keeps.pooled q (Array.mem_toList_iff.mpr (Array.mem_of_getElem? found))

/-- Admitting a call to a sequence with the property pools one with it. -/
theorem extend (closed : api.AdmitClosed P) (keeps : s.Keeps api P) {q e : Sequence} {f : Nat}
    (holds : P q) (extended : s.api.extend? 0 q f = some e) : (s.push e).Keeps api P :=
  keeps.push (closed.extend holds (keeps.api_eq ▸ extended))

/-- A whole pool with the property is a pool grown from nothing. -/
theorem grows (keeps : s.Keeps api P) : s.Grows api [] P :=
  ⟨keeps.api_eq, s.pool.toList, rfl, keeps.pooled⟩

end Keeps

namespace Grows

variable {base : List Sequence}

/-- Every search has grown from its own pool. -/
theorem self (api_eq : s.api = api) : s.Grows api s.pool.toList P :=
  ⟨api_eq, [], by simp, by simp⟩

/-- A pooled sequence is one of `base` or has the property. -/
theorem pooled (grows : s.Grows api base P) : ∀ q ∈ s.pool.toList, q ∈ base ∨ P q := by
  obtain ⟨more, pool, added⟩ := grows.pool_eq
  intro q member
  rw [pool, List.mem_append] at member
  exact member.imp id (added q)

/-- When `base` and the added sequences have a property, the whole pool has it. -/
theorem keeps (grows : s.Grows api base P) {Q : Sequence → Prop} (based : ∀ q ∈ base, Q q)
    (weaken : ∀ q, P q → Q q) : s.Keeps api Q :=
  ⟨grows.api_eq, fun q member => (grows.pooled q member).elim (based q) (weaken q)⟩

/-- The pool still starts with `base`. -/
theorem getElem?_pool (grows : s.Grows api base P) {i : Nat} (bound : i < base.length) :
    s.pool[i]? = base[i]? := by
  obtain ⟨more, pool, -⟩ := grows.pool_eq
  rw [← Array.getElem?_toList, pool, List.getElem?_append_left bound]

theorem push (grows : s.Grows api base P) {q : Sequence} (holds : P q) :
    (s.push q).Grows api base P := by
  obtain ⟨more, pool, added⟩ := grows.pool_eq
  refine ⟨grows.api_eq, more ++ [q], by simp [Search.push, pool], ?_⟩
  intro q' member
  rcases List.mem_append.mp member with old | new
  · exact added q' old
  · rw [List.mem_singleton.mp new]
    exact holds

theorem resetVisited (grows : s.Grows api base P) : s.resetVisited.Grows api base P :=
  ⟨grows.api_eq, grows.pool_eq⟩

/-- Extending each frontier sequence by each function adds extensions of frontier sequences. -/
theorem extendLayer (grows : s.Grows api base P) {fast : Bool} {frontier : List Sequence}
    (admitted : ∀ q ∈ frontier, ∀ f < api.size, ∀ e, api.extend? 0 q f = some e → P e) :
    (s.extendLayer fast frontier).1.Grows api base P := by
  unfold Search.extendLayer
  refine foldl_invariant (fun st : Search × Bool => st.1.Grows api base P) grows ?_ rfl
  rintro ⟨t, stopped⟩ q member grown
  refine foldl_invariant (fun st : Search × Bool => st.1.Grows api base P) grown ?_ rfl
  rintro ⟨t', stopped'⟩ f candidate grown'
  -- the candidates are the functions of the API
  have bound : f < api.size := grown.api_eq ▸ List.mem_range.mp candidate
  dsimp only at grown' ⊢
  split
  · exact grown'
  · split
    · exact grown'
    · rename_i e extended
      exact grown'.push (admitted q member f bound e (grown'.api_eq ▸ extended))

end Grows

variable {stopAtEnd fast : Bool}

/-- The breadth-first layers add extensions of pooled sequences shorter than `bound`, not ended
when the search stops at end functions. -/
theorem Grows.bfsLayers {base : List Sequence} {bound : Nat}
    (closed : ∀ q, (q ∈ base ∨ P q) → q.size < bound → (stopAtEnd = true → api.isEnded q = false) →
      ∀ f e, api.extend? 0 q f = some e → P e) :
    ∀ (fuel len : Nat) {s : Search}, len + fuel ≤ bound → s.Grows api base P →
      (Search.bfsLayers stopAtEnd fast fuel len s).Grows api base P
  | 0, _, _, _, grows => grows
  | fuel + 1, len, s, within, grows => by
    rw [Search.bfsLayers]
    split
    · exact grows
    dsimp only
    -- the frontier is pooled, of length `len`, and not ended when the search stops at ends
    have layer : (s.extendLayer fast (s.pool.toList.filter fun q =>
        q.size == len && !(stopAtEnd && s.api.isEnded q))).1.Grows api base P := by
      refine grows.extendLayer fun q member => ?_
      obtain ⟨pooled, chosen⟩ := List.mem_filter.mp member
      simp only [Bool.and_eq_true, beq_iff_eq, Bool.not_eq_true', Bool.and_eq_false_imp,
        grows.api_eq] at chosen
      exact fun f _ => closed q (grows.pooled q pooled) (by omega) chosen.2 f
    split
    · exact layer
    · exact Grows.bfsLayers closed fuel (len + 1) (by omega) layer

/-- Breadth-first search adds the empty sequence and extensions of pooled sequences shorter than
`maxLen`, not ended when it stops at end functions. -/
theorem bfs_grows {base : List Sequence} (grows : s.Grows api base P) (empty : P {}) {maxLen : Nat}
    (closed : ∀ q, (q ∈ base ∨ P q) → q.size < maxLen → (stopAtEnd = true → api.isEnded q = false) →
      ∀ f e, api.extend? 0 q f = some e → P e) :
    (s.bfs maxLen stopAtEnd fast).Grows api base P := by
  unfold Search.bfs
  dsimp only
  split
  · exact grows.resetVisited
  · apply Grows.bfsLayers closed maxLen 0 (by omega)
    split
    · exact grows.resetVisited
    · obtain ⟨more, pool, added⟩ := grows.pool_eq
      refine ⟨grows.api_eq, more ++ [({} : Sequence)], by simp [Search.resetVisited, pool], ?_⟩
      intro q member
      rcases List.mem_append.mp member with old | new
      · exact added q old
      · rw [List.mem_singleton.mp new]
        exact empty

/-- Breadth-first search pools sequences with a property that admission keeps. -/
theorem Keeps.bfs (closed : api.AdmitClosed P) (keeps : s.Keeps api P) (maxLen : Nat) :
    (s.bfs maxLen stopAtEnd fast).Keeps api P :=
  (bfs_grows keeps.grows closed.empty fun _ pooled _ _ _ _ extended =>
    closed.extend (pooled.resolve_left List.not_mem_nil) extended).keeps
    (fun _ member => absurd member List.not_mem_nil) fun _ holds => holds

/-- The layers of a deep search pool extensions of pooled sequences that are shorter than
`bound` and not ended. -/
theorem Keeps.deepLayers {bound : Nat}
    (closed : ∀ q, P q → q.size < bound → api.isEnded q = false →
      ∀ f e, api.extend? 0 q f = some e → P e) (ceiling : Nat) :
    ∀ (fuel len : Nat) (fns edges : Array Bool) {s : Search}, len + fuel ≤ bound → s.Keeps api P →
      (Search.deepLayers ceiling fuel len fns edges s).Keeps api P
  | 0, _, _, _, _, _, keeps => keeps
  | fuel + 1, len, fns, edges, s, within, keeps => by
    rw [Search.deepLayers]
    split
    · exact keeps
    extract_lets frontier
    split
    rename_i t fns' edges' fresh layer
    -- every frontier sequence is pooled, of length `len` and not ended, and each admitted
    -- extension is pooled in turn
    have kept : t.Keeps api P := by
      refine foldl_invariant
        (fun st : Search × Array Bool × Array Bool × Bool => st.1.Keeps api P) keeps ?_ layer
      intro acc q member kept
      obtain ⟨pooled, chosen⟩ := List.mem_filter.mp member
      simp only [Bool.and_eq_true, beq_iff_eq, Bool.not_eq_true', keeps.api_eq] at chosen
      refine foldl_invariant
        (fun st : Search × Array Bool × Array Bool × Bool => st.1.Keeps api P) kept ?_ rfl
      rintro ⟨t, fns', edges', fresh⟩ f _ kept'
      dsimp only at kept' ⊢
      split
      · exact kept'
      · rename_i e extended
        exact kept'.push
          (closed q (keeps.pooled q pooled) (by omega) chosen.2 f e (kept'.api_eq ▸ extended))
    split
    · exact Keeps.deepLayers closed ceiling fuel (len + 1) _ _ (by omega) kept
    · exact kept

/-- Deep breadth-first search pools the empty sequence and extensions of pooled sequences shorter
than the catalog and not ended. -/
theorem tryDeepBfs_keeps (api_eq : s.api = api) (empty : P {})
    (closed : ∀ q, P q → q.size < api.size → api.isEnded q = false →
      ∀ f e, api.extend? 0 q f = some e → P e) (ceiling : Nat) :
    (s.tryDeepBfs ceiling).Keeps api P := by
  unfold Search.tryDeepBfs
  dsimp only
  split
  · exact ⟨api_eq, by simp [Search.clearPool, Search.resetVisited]⟩
  · refine Keeps.deepLayers closed ceiling _ 0 _ _
      (by simp [Search.clearPool, Search.resetVisited, api_eq]) ⟨api_eq, ?_⟩
    simpa using empty

/-- Deep breadth-first search pools sequences with a property that admission keeps. -/
theorem Keeps.tryDeepBfs (closed : api.AdmitClosed P) (keeps : s.Keeps api P) (ceiling : Nat) :
    (s.tryDeepBfs ceiling).Keeps api P :=
  tryDeepBfs_keeps keeps.api_eq closed.empty
    (fun _ holds _ _ _ _ extended => closed.extend holds extended) ceiling

/-- One step of a random walk: the drawn sequence is pooled or empty, and it is extended only
when it is not ended, with `stopAtEnd`, and shorter than a positive `maxDepth`. -/
theorem Keeps.walkStep {maxDepth : Nat} (empty : P {})
    (closed : ∀ q, P q → (stopAtEnd = true → api.isEnded q = false) →
      (0 < maxDepth → q.size < maxDepth) → ∀ f e, api.extend? 0 q f = some e → P e)
    (keeps : s.Keeps api P) : (s.walkStep stopAtEnd maxDepth).Keeps api P := by
  unfold Search.walkStep
  dsimp only
  -- drawing only moves the generator on
  have walked : ∀ rng, ({ s with rng } : Search).Keeps api P :=
    fun _ => ⟨keeps.api_eq, keeps.pooled⟩
  split
  · exact walked _
  rename_i going
  split
  · exact walked _
  rename_i short
  split
  · rename_i e extended
    simp only [Bool.and_eq_true, not_and, Bool.not_eq_true, keeps.api_eq] at going
    simp only [Bool.and_eq_true, decide_eq_true_eq, not_and, Nat.not_le] at short
    exact (walked _).push (closed _ (keeps.getD empty _) going short _ e (keeps.api_eq ▸ extended))
  · exact walked _

/-- A random walk pools the empty sequence and extensions of pooled sequences, each not ended
with `stopAtEnd` and shorter than a positive `maxDepth`. -/
theorem randomWalk_keeps (api_eq : s.api = api) {maxDepth : Nat} (empty : P {})
    (closed : ∀ q, P q → (stopAtEnd = true → api.isEnded q = false) →
      (0 < maxDepth → q.size < maxDepth) → ∀ f e, api.extend? 0 q f = some e → P e)
    (steps : Nat) : (s.randomWalk steps stopAtEnd maxDepth).Keeps api P := by
  unfold Search.randomWalk
  dsimp only
  split
  · exact ⟨api_eq, by simp [Search.clearPool, Search.resetVisited]⟩
  · have start : ({ s.clearPool.resetVisited with pool := #[{}] } : Search).Keeps api P :=
      ⟨api_eq, by simpa using empty⟩
    generalize ({ s.clearPool.resetVisited with pool := #[{}] } : Search) = t at start ⊢
    induction steps generalizing t with
    | zero => exact start
    | succ n ih => exact ih _ (start.walkStep empty closed)

/-- A random walk pools sequences with a property that admission keeps. -/
theorem Keeps.randomWalk (closed : api.AdmitClosed P) (keeps : s.Keeps api P) (steps : Nat)
    (maxDepth : Nat) : (s.randomWalk steps stopAtEnd maxDepth).Keeps api P :=
  randomWalk_keeps keeps.api_eq closed.empty
    (fun _ holds _ _ _ _ extended => closed.extend holds extended) steps

/-- Replaying one chain pools sequences with the property. -/
theorem Keeps.replayChain (closed : api.AdmitClosed P) (keeps : s.Keeps api P) (ids : List Nat) :
    (s.replayChain ids).1.Keeps api P := by
  unfold Search.replayChain
  dsimp only
  -- the sequence being extended has the property too
  refine (foldl_invariant
    (fun st : Search × Sequence × List Nat × Nat × Bool => st.1.Keeps api P ∧ P st.2.1)
    ⟨keeps, closed.empty⟩ ?_ rfl).1
  rintro ⟨t, q, admitted, added, going⟩ id _ ⟨kept, holds⟩
  dsimp only
  split
  · exact ⟨kept, holds⟩
  split
  · exact ⟨kept, holds⟩
  · rename_i e extended
    exact ⟨kept.extend closed holds extended, closed.extend holds (kept.api_eq ▸ extended)⟩

/-- Seed replay, when it succeeds, pools sequences with the property. -/
theorem Keeps.replay (closed : api.AdmitClosed P) (keeps : s.Keeps api P)
    {chains : List SeedChain} {report : ReplayReport} {s' : Search}
    (replayed : s.replay chains = .ok (report, s')) : s'.Keeps api P := by
  unfold Search.replay at replayed
  extract_lets resolve kept frequency at replayed
  split at replayed
  · cases replayed
  split at replayed
  rename_i t covered added folded
  extract_lets reached report' at replayed
  obtain ⟨-, rfl⟩ := Prod.mk.inj (Except.ok.inj replayed)
  refine foldl_invariant (fun st : Search × List Nat × Nat => st.1.Keeps api P) ?_ ?_ folded
  · exact keeps.clearPool.resetVisited
  · rintro ⟨t', covered', added'⟩ ⟨chain, ids⟩ _ kept'
    dsimp only
    exact kept'.replayChain closed ids

-- Every element a successful `filterMapM` keeps comes from an element of the list.
private theorem mem_of_filterMapM {α β : Type} {f : α → Option (Option β)} :
    ∀ {l : List α} {out : List β}, l.filterMapM f = some out →
      ∀ y ∈ out, ∃ x ∈ l, f x = some (some y)
  | [], out, done => by
    rw [List.filterMapM_nil] at done
    cases done
    intro y member
    cases member
  | a :: l, out, done => by
    rw [List.filterMapM_cons] at done
    cases first : f a with
    | none => simp [first] at done
    | some r =>
      cases r with
      | none =>
        simp only [first, Option.bind_eq_bind, Option.bind_some] at done
        intro y member
        obtain ⟨x, inRest, found⟩ := mem_of_filterMapM done y member
        exact ⟨x, List.mem_cons_of_mem _ inRest, found⟩
      | some b =>
        simp only [first, Option.bind_eq_bind, Option.bind_some, Option.bind_eq_some_iff,
          Option.pure_def, Option.some.injEq] at done
        obtain ⟨rest, restDone, rfl⟩ := done
        intro y member
        rcases List.mem_cons.mp member with rfl | inRest
        · exact ⟨a, List.mem_cons_self, first⟩
        · obtain ⟨x, inL, found⟩ := mem_of_filterMapM restDone y inRest
          exact ⟨x, List.mem_cons_of_mem _ inL, found⟩

/-- The prefix chosen for a parameter is one of the candidates. -/
theorem prefixFor_mem {cands : List Nat} {target k i : Nat}
    (chosen : s.prefixFor cands target k = some i) : i ∈ cands := by
  unfold Search.prefixFor at chosen
  dsimp only at chosen
  split at chosen
  · rename_i found
    cases chosen
    exact (List.mem_filter.mp (List.mem_of_find?_eq_some found)).1
  · exact (List.mem_filter.mp (List.mem_of_getLast? chosen)).1

/-- A candidate is pooled and not ended. -/
theorem mem_candidates {i : Nat} (member : i ∈ s.candidates) :
    i < s.pool.size ∧ s.api.isEnded (s.pool.getD i {}) = false := by
  unfold Search.candidates at member
  obtain ⟨bound, chosen⟩ := List.mem_filter.mp member
  simp only [Bool.and_eq_true, Bool.not_eq_true'] at chosen
  exact ⟨List.mem_range.mp bound, chosen.1.2⟩

/-- A repair admits the target to a merge of prefixes, each the pooled sequence of a
candidate. -/
theorem repair?_eq_some {cands : List Nat} {target : Nat} {q : Sequence}
    (repaired : s.repair? cands target = some q) :
    ∃ prefixes : List Sequence, (∀ p ∈ prefixes, ∃ i ∈ cands, p = s.pool.getD i {}) ∧
      s.api.extend? 0 (Sequence.merge 0 prefixes) target = some q := by
  unfold Search.repair? at repaired
  simp only [Option.bind_eq_bind, Option.bind_eq_some_iff] at repaired
  obtain ⟨prefixes, found, extended⟩ := repaired
  refine ⟨prefixes, ?_, extended⟩
  intro p member
  obtain ⟨k, -, chosen⟩ := mem_of_filterMapM found p member
  split at chosen
  · cases chosen
  · obtain ⟨i, picked, same⟩ := Option.map_eq_some_iff.mp chosen
    cases same
    exact ⟨i, prefixFor_mem picked, rfl⟩

/-- Repair passes add the targets admitted to merges of pooled sequences that are not ended. -/
theorem Grows.repairPasses {base : List Sequence}
    (closed : ∀ prefixes : List Sequence, (∀ p ∈ prefixes, (p ∈ base ∨ P p) ∧ api.isEnded p = false) →
      ∀ target e, api.extend? 0 (Sequence.merge 0 prefixes) target = some e → P e) :
    ∀ (fuel : Nat) (unvisited : List Nat) (total : Nat) {s : Search}, s.Grows api base P →
      (Search.repairPasses fuel unvisited total s).1.Grows api base P
  | 0, _, _, _, grows => grows
  | fuel + 1, unvisited, total, s, grows => by
    rw [Search.repairPasses]
    split
    rename_i t covered folded
    -- within a pass the pool only grows, so the candidates of its start stay where they were
    have grown : t.Grows api base P ∧ t.Grows api s.pool.toList (fun _ => True) := by
      refine foldl_invariant (fun st : Search × List Nat =>
        st.1.Grows api base P ∧ st.1.Grows api s.pool.toList (fun _ => True))
        ⟨grows, Grows.self grows.api_eq⟩ ?_ folded
      rintro ⟨t', covered'⟩ target _ ⟨grown, extended⟩
      dsimp only
      split
      · rename_i q repaired
        obtain ⟨prefixes, chosen, admitted⟩ := repair?_eq_some repaired
        refine ⟨grown.push (closed prefixes ?_ target q (grown.api_eq ▸ admitted)),
          extended.push trivial⟩
        intro p member
        obtain ⟨i, candidate, rfl⟩ := chosen p member
        obtain ⟨bound, unended⟩ := mem_candidates candidate
        have same : t'.pool.getD i {} = s.pool.getD i {} := by
          rw [Array.getD_eq_getD_getElem?, Array.getD_eq_getD_getElem?,
            extended.getElem?_pool (by simpa using bound), Array.getElem?_toList]
        rw [same, ← grows.api_eq]
        exact ⟨grows.pooled _ (getD_mem_pool bound), unended⟩
      · exact ⟨grown, extended⟩
    split
    · exact grown.1
    · exact Grows.repairPasses closed fuel _ _ grown.1

/-- Coverage repair adds the targets admitted to merges of pooled sequences that are not
ended. -/
theorem coverUnvisited_grows {base : List Sequence} (grows : s.Grows api base P)
    (closed : ∀ prefixes : List Sequence, (∀ p ∈ prefixes, (p ∈ base ∨ P p) ∧ api.isEnded p = false) →
      ∀ target e, api.extend? 0 (Sequence.merge 0 prefixes) target = some e → P e) :
    s.coverUnvisited.1.Grows api base P :=
  Grows.repairPasses closed _ _ _ grows

/-- Coverage repair pools sequences with a property that admission and merging keep. -/
theorem Keeps.coverUnvisited (closed : api.MergeClosed P) (keeps : s.Keeps api P) :
    s.coverUnvisited.1.Keeps api P :=
  (coverUnvisited_grows keeps.grows fun prefixes pooled _ _ admitted =>
    closed.extend (closed.merge prefixes fun p member =>
      (pooled p member).1.resolve_left List.not_mem_nil) admitted).keeps
    (fun _ member => absurd member List.not_mem_nil) fun _ holds => holds

/-- Backward search pools what coverage repair adds from an empty pool. -/
theorem backward_keeps (api_eq : s.api = api)
    (closed : ∀ prefixes : List Sequence, (∀ p ∈ prefixes, P p ∧ api.isEnded p = false) →
      ∀ target e, api.extend? 0 (Sequence.merge 0 prefixes) target = some e → P e) :
    s.backward.Keeps api P := by
  have cleared : s.clearPool.resetVisited.Grows api [] P :=
    ⟨api_eq, [], by simp [Search.clearPool, Search.resetVisited], by simp⟩
  refine (coverUnvisited_grows cleared fun prefixes pooled => closed prefixes fun p member => ?_).keeps
    (fun _ member => absurd member List.not_mem_nil) fun _ holds => holds
  exact ⟨(pooled p member).1.resolve_left List.not_mem_nil, (pooled p member).2⟩

/-- Backward search pools sequences with the property. -/
theorem Keeps.backward (closed : api.MergeClosed P) (keeps : s.Keeps api P) :
    s.backward.Keeps api P :=
  keeps.clearPool.resetVisited.coverUnvisited closed

/-- Reverse construction pools what it builds: sequences with `P`, when the memo keeps, for each
target, a property `Q` of it that implies `P`. -/
theorem reverseAll_keeps (api_eq : s.api = api) {Q : Nat → Sequence → Prop}
    (builds : ∀ fuel, ReverseMemo.BuildKeeps api.constructible Q (api.reverseWith fuel))
    (holds : ∀ f q, Q f q → P q) : s.reverseAll.Keeps api P := by
  unfold Search.reverseAll
  extract_lets cleared api'
  have same : api' = api := api_eq
  subst same
  refine (foldl_invariant (fun st : Search × ReverseMemo =>
    st.1.Keeps api' P ∧ st.2.Keeps api'.constructible Q)
    ⟨⟨rfl, by simp [cleared, Search.clearPool, Search.resetVisited]⟩,
      ReverseMemo.keeps_new api' Q⟩ ?_ rfl).1
  rintro ⟨t, memo⟩ f _ ⟨kept, memoKeeps⟩
  have step := builds (api'.size + 1) f memo memoKeeps
  dsimp only
  split
  · rename_i q memo' depends answer
    rw [answer] at step
    exact ⟨kept.push (holds f q (step.2.2 q rfl)), step.1⟩
  · rename_i memo' depends answer
    rw [answer] at step
    exact ⟨kept, step.1⟩

/-- Reverse construction pools disciplined sequences. -/
theorem Keeps.reverseAll (built : api.graph = Graph.build api.catalog)
    (keeps : s.Keeps api (·.Disciplined api.graph)) :
    s.reverseAll.Keeps api (·.Disciplined api.graph) :=
  reverseAll_keeps keeps.api_eq
    (Api.reverseWith_keeps (Api.disciplined_assembleKeeps built Api.constructible_marks))
    fun _ _ holds => holds.1

/-- The searches that runs of strategies reach from a fresh search: breadth-first search, deep
breadth-first search, random walks, coverage repair, backward search, reverse construction and
successful seed replays, with any settings. -/
inductive Reachable (api : Api) (config : SearchConfig) : Search → Prop
  | new : Reachable api config (Search.new api config)
  | bfs {s : Search} (maxLen : Nat) (stopAtEnd fast : Bool) :
    Reachable api config s → Reachable api config (s.bfs maxLen stopAtEnd fast)
  | tryDeepBfs {s : Search} (ceiling : Nat) :
    Reachable api config s → Reachable api config (s.tryDeepBfs ceiling)
  | randomWalk {s : Search} (steps : Nat) (stopAtEnd : Bool) (maxDepth : Nat) :
    Reachable api config s → Reachable api config (s.randomWalk steps stopAtEnd maxDepth)
  | coverUnvisited {s : Search} : Reachable api config s → Reachable api config s.coverUnvisited.1
  | backward {s : Search} : Reachable api config s → Reachable api config s.backward
  | reverseAll {s : Search} : Reachable api config s → Reachable api config s.reverseAll
  | replay {s s' : Search} {chains : List SeedChain} {report : ReplayReport} :
    Reachable api config s → s.replay chains = .ok (report, s') → Reachable api config s'

namespace Reachable

variable {config : SearchConfig}

/-- Every strategy of the settings is a run of strategies. -/
theorem generate (reach : Reachable api config s) (strategy : Strategy) :
    Reachable api config (s.generate strategy) := by
  cases strategy with
  | bfs | fastBfs | bfsEndPoint | fastBfsEndPoint => exact reach.bfs _ _ _
  | randomWalk | randomWalkEndPoint => exact reach.randomWalk _ _ _
  | tryDeepBfs => exact reach.tryDeepBfs _
  | directBackwardSearch => exact reach.backward
  | reverseConstruct => exact reach.reverseAll

theorem generateDefault (reach : Reachable api config s) :
    Reachable api config s.generateDefault :=
  (reach.generate .bfsEndPoint).coverUnvisited

end Reachable

/-- Over the graph built from the catalog, the discipline is kept by admission and merging. -/
theorem disciplined_mergeClosed (built : api.graph = Graph.build api.catalog) :
    api.MergeClosed (·.Disciplined api.graph) where
  empty := Sequence.disciplined_empty _
  extend := fun holds extended => Api.extend?_disciplined built holds extended
  merge := fun _ all => Sequence.merge_disciplined 0 all

/-- Every run of strategies pools disciplined sequences. -/
theorem Reachable.keeps_disciplined {config : SearchConfig}
    (built : api.graph = Graph.build api.catalog) (reach : Reachable api config s) :
    s.Keeps api (·.Disciplined api.graph) := by
  have closed := disciplined_mergeClosed built
  induction reach with
  | new => exact ⟨rfl, by simp [Search.new]⟩
  | bfs maxLen stopAtEnd fast _ ih => exact ih.bfs closed.toAdmitClosed maxLen
  | tryDeepBfs ceiling _ ih => exact ih.tryDeepBfs closed.toAdmitClosed ceiling
  | randomWalk steps stopAtEnd maxDepth _ ih => exact ih.randomWalk closed.toAdmitClosed steps maxDepth
  | coverUnvisited _ ih => exact ih.coverUnvisited closed
  | backward _ ih => exact ih.backward closed
  | reverseAll _ ih => exact ih.reverseAll built
  | replay _ replayed ih => exact ih.replay closed.toAdmitClosed replayed

/-- Every sequence that any run of strategies pools, from a fresh search over a catalog, keeps
the borrow discipline against the dependency graph of the catalog. -/
theorem Reachable.pool_wellFormed {catalog : Catalog} {config : SearchConfig} {s : Search}
    (reach : Reachable (Api.ofCatalog catalog) config s) :
    ∀ q ∈ s.pool.toList, q.WellFormed (Graph.build catalog) :=
  fun q member => ((reach.keeps_disciplined rfl).pooled q member).wellFormed

end Search

end DriverSynth
