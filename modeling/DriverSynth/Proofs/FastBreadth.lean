import DriverSynth.Proofs.Breadth
import Mathlib.Data.List.Flatten

/-! # Fast breadth-first search is a part of the exhaustive one

Fast breadth-first search skips visited functions and returns once its coverage target is reached,
possibly within a layer. Each round still extends some of the exhaustive frontier by some of the
functions (`Search.FastRound`), so its pool is a sublist of the exhaustive pool. A round stops
early only at the target (`Search.extendLayer_stop`), and a round that does not stop has tried
every unvisited function on every frontier sequence (`Search.FastLevel`). Main statement:
`Search.fastBfs_subrun`.
-/

namespace DriverSynth

namespace Search

variable {s t : Search}

/-- Pushing keeps every visit. -/
theorem visited_push {q : Sequence} {f : Nat} (visited : t.visited.getD f false = true) :
    (t.push q).visited.getD f false = true := by
  unfold Search.push
  dsimp only
  split
  · rw [getD_setIfInBounds]
    split
    · rfl
    · exact visited
  · exact visited

/-- A sequence admitted with a last call of `f` ends in `f`. -/
theorem lastFn?_of_extend? {api : Api} {q e : Sequence} {f : Nat}
    (extended : api.extend? 0 q f = some e) : e.lastFn? = some f := by
  rw [Sequence.lastFn?_eq_getLast?, Api.extend?_fns extended, List.getLast?_concat]

/-- A fast round part-way through, after the pairs `tried`: the pool has grown by some of their
extensions in order, the marks are the pool's last functions, and unless the round stopped every
tried function that extends its sequence is visited. -/
structure FastRound (s : Search) (tried : List (Sequence × Nat)) (st : Search × Bool) :
    Prop where
  api_eq : st.1.api = s.api
  grown : ∃ added, st.1.pool.toList = s.pool.toList ++ added ∧
    added.Sublist (tried.filterMap fun p => s.api.extend? 0 p.1 p.2)
  marked : st.1.Marked
  closed : st.2 = false → ∀ p ∈ tried, (s.api.extend? 0 p.1 p.2).isSome →
    st.1.visited.getD p.2 false = true

namespace FastRound

variable {tried : List (Sequence × Nat)} {stop : Bool} {q : Sequence} {f : Nat}

theorem start (marked : s.Marked) : FastRound s [] (s, false) :=
  ⟨rfl, ⟨[], by simp, List.Sublist.slnil⟩, marked, fun _ p member => absurd member List.not_mem_nil⟩

/-- Skipping a function, because the round has stopped or the function is visited. -/
theorem skip (round : FastRound s tried (t, stop))
    (skipped : stop = true ∨ t.visited.getD f false = true) :
    FastRound s (tried ++ [(q, f)]) (t, stop) := by
  obtain ⟨added, pool, sub⟩ := round.grown
  refine ⟨round.api_eq, ⟨added, pool, ?_⟩, round.marked, fun going p member _ => ?_⟩
  · rw [List.filterMap_append]
    exact sub.trans (List.sublist_append_left _ _)
  · rcases List.mem_append.mp member with old | new
    · exact round.closed going p old ‹_›
    · rw [List.mem_singleton.mp new]
      rcases skipped with stopped | visited
      · rw [stopped] at going
        cases going
      · exact visited

/-- Trying a function that does not extend the sequence. -/
theorem fail (round : FastRound s tried (t, false)) (failed : s.api.extend? 0 q f = none) :
    FastRound s (tried ++ [(q, f)]) (t, false) := by
  obtain ⟨added, pool, sub⟩ := round.grown
  refine ⟨round.api_eq, ⟨added, pool, ?_⟩, round.marked, fun going p member => ?_⟩
  · simpa [List.filterMap_append, failed] using sub
  · rcases List.mem_append.mp member with old | new
    · exact round.closed going p old
    · rw [List.mem_singleton.mp new, failed]
      intro isSome
      cases isSome

/-- Pushing the extension of the sequence by a function of the API, and stopping when the target
is reached. -/
theorem push (round : FastRound s tried (t, false)) {e : Sequence}
    (extended : s.api.extend? 0 q f = some e) (bound : f < s.api.size) :
    FastRound s (tried ++ [(q, f)]) (t.push e, (t.push e).allVisited) := by
  obtain ⟨added, pool, sub⟩ := round.grown
  have last := lastFn?_of_extend? extended
  -- the pushed sequence ends in `f`, a function of the API, and so marks it
  have marked : (t.push e).Marked := round.marked.push fun g ends => by
    rw [last, Option.some_inj] at ends
    rw [round.api_eq, ← ends]
    exact bound
  refine ⟨round.api_eq, ⟨added ++ [e], ?_, ?_⟩, marked, fun going p member _ => ?_⟩
  · dsimp only at pool
    simp [Search.push, pool]
  · rw [List.filterMap_append]
    simpa [extended] using sub
  · rcases List.mem_append.mp member with old | new
    · exact visited_push (round.closed rfl p old ‹_›)
    · rw [List.mem_singleton.mp new]
      exact (marked.visited_iff f).mpr ⟨e, by simp [Search.push], last⟩

end FastRound

/-- A fast round stops only once its coverage target is reached. -/
theorem extendLayer_stop (t : Search) (frontier : List Sequence) :
    (t.extendLayer true frontier).2 = true → (t.extendLayer true frontier).1.allVisited = true := by
  unfold extendLayer
  refine foldl_invariant (fun st : Search × Bool => st.2 = true → st.1.allVisited = true)
    (fun stopped => absurd stopped Bool.false_ne_true) ?_ rfl
  rintro ⟨u, stop⟩ q - holds
  refine foldl_invariant (fun st : Search × Bool => st.2 = true → st.1.allVisited = true)
    holds ?_ rfl
  rintro ⟨u', stop'⟩ f - holds'
  dsimp only
  split
  · exact holds'
  · split
    · exact fun stopped => absurd stopped Bool.false_ne_true
    · exact fun reached => by simpa using reached

/-- A fast round over a frontier tries the functions of the API on each frontier sequence in
turn, whatever it skips or pushes. -/
theorem extendLayer_fast (marked : s.Marked) (frontier : List Sequence) :
    FastRound s (frontier.flatMap fun q => (List.range s.api.size).map (q, ·))
      (s.extendLayer true frontier) := by
  unfold extendLayer
  refine foldl_prefix_invariant (P := fun done st =>
    FastRound s (done.flatMap fun q => (List.range s.api.size).map (q, ·)) st)
    (by simpa using FastRound.start marked) ?_ rfl
  intro done q _ ⟨t, stop⟩ _ round
  have api_eq : t.api = s.api := round.api_eq
  dsimp only
  rw [api_eq, List.flatMap_append, List.flatMap_singleton]
  refine foldl_prefix_invariant (P := fun fs st =>
    FastRound s ((done.flatMap fun q => (List.range s.api.size).map (q, ·)) ++ fs.map (q, ·)) st)
    (by simpa using round) ?_ rfl
  intro fs f rest ⟨u, stop'⟩ split round'
  have bound : f < s.api.size := List.mem_range.mp (split ▸ List.mem_append_right fs
    List.mem_cons_self)
  rw [List.map_append, List.map_singleton, ← List.append_assoc]
  dsimp only
  by_cases skipped : (stop' || (true && u.visited.getD f false)) = true
  · rw [if_pos skipped]
    refine round'.skip ?_
    simpa using skipped
  · rw [if_neg skipped]
    obtain ⟨rfl, -⟩ : stop' = false ∧ u.visited.getD f false = false := by simpa using skipped
    have api_eq' : u.api = s.api := round'.api_eq
    rw [api_eq']
    -- the function is tried: it fails, or its extension is pushed
    cases found : s.api.extend? 0 q f with
    | none => exact round'.fail found
    | some e => simpa using round'.push found bound

/-- Every function that extends a pooled sequence shorter than `len`, one not ended when the
search stops at end functions, is visited. -/
def ClosedBelow (stopAtEnd : Bool) (len : Nat) (s : Search) : Prop :=
  ∀ q ∈ s.pool.toList, q.size < len → (stopAtEnd = true → s.api.isEnded q = false) →
    ∀ f < s.api.size, (s.api.extend? 0 q f).isSome → s.visited.getD f false = true

/-- A fast search before its round at length `len`: its pool is taken from the layers up to
`len`, in order, its marks are the last functions of the pool, and it has visited every function
that extends an unended pooled sequence shorter than `len`. -/
structure FastLevel (api : Api) (stopAtEnd : Bool) (len : Nat) (s : Search) : Prop where
  api_eq : s.api = api
  sublist : s.pool.toList.Sublist (api.layers stopAtEnd len)
  marked : s.Marked
  closed : s.ClosedBelow stopAtEnd len

/-- A search that keeps its pool and adds to it keeps every visit. -/
theorem Marked.visited_mono (marked : s.Marked) (marked' : t.Marked)
    (kept : ∀ q ∈ s.pool.toList, q ∈ t.pool.toList) {f : Nat}
    (visited : s.visited.getD f false = true) : t.visited.getD f false = true := by
  obtain ⟨q, pooled, last⟩ := (marked.visited_iff f).mp visited
  exact (marked'.visited_iff f).mpr ⟨q, kept q pooled, last⟩

/-- The extensions a fast round may push are those of the frontier. -/
theorem filterMap_tried (api : Api) (frontier : List Sequence) :
    ((frontier.flatMap fun q => (List.range api.size).map (q, ·)).filterMap
      fun p => api.extend? 0 p.1 p.2) = frontier.flatMap api.extensions := by
  simp only [List.filterMap_flatMap, List.filterMap_map, Function.comp_def]
  rfl

variable {api : Api} {stopAtEnd : Bool}

/-- A fast round at length `len` from a fast search at that length leaves one at the next length,
unless it stops, and then it has reached its target. -/
theorem FastLevel.round {len : Nat} (level : s.FastLevel api stopAtEnd len) :
    let frontier := s.pool.toList.filter fun q =>
      q.size == len && !(stopAtEnd && s.api.isEnded q)
    (s.extendLayer true frontier).1.pool.toList.Sublist (api.layers stopAtEnd (len + 1)) ∧
      (s.extendLayer true frontier).1.Marked ∧
      ((s.extendLayer true frontier).2 = true → (s.extendLayer true frontier).1.allVisited = true) ∧
      ((s.extendLayer true frontier).2 = false →
        (s.extendLayer true frontier).1.FastLevel api stopAtEnd (len + 1)) := by
  intro frontier
  have round := extendLayer_fast level.marked frontier
  obtain ⟨added, pool, sub⟩ := round.grown
  rw [filterMap_tried, level.api_eq] at sub
  -- what a fast round pushes is part of the next exhaustive layer
  have onFrontier : frontier.Sublist
      ((api.layer stopAtEnd len).filter fun q => !(stopAtEnd && api.isEnded q)) := by
    rw [← Api.filter_layers len]
    simpa only [frontier, level.api_eq] using level.sublist.filter
      fun q => q.size == len && !(stopAtEnd && api.isEnded q)
  have next : added.Sublist (api.layer stopAtEnd (len + 1)) :=
    sub.trans (onFrontier.flatMap _)
  have grown : (s.extendLayer true frontier).1.pool.toList.Sublist
      (api.layers stopAtEnd (len + 1)) := by
    rw [pool, Api.layers_succ]
    exact level.sublist.append next
  refine ⟨grown, round.marked, extendLayer_stop s frontier,
    fun going => ⟨?_, grown, round.marked, ?_⟩⟩
  · rw [round.api_eq, level.api_eq]
  intro q pooled short going' f bound extending
  rw [round.api_eq] at going' bound extending
  rw [pool, List.mem_append] at pooled
  rcases pooled with old | new
  · rcases Nat.lt_succ_iff_lt_or_eq.mp short with shorter | current
    -- a shorter sequence was closed before the round, and its visits stay
    · exact level.marked.visited_mono round.marked (fun r member => by
        rw [pool]
        exact List.mem_append_left _ member) (level.closed q old shorter going' f bound extending)
    -- a sequence of the round's length was on the frontier and tried with every function
    · refine round.closed going (q, f) ?_ extending
      simp only [List.mem_flatMap, List.mem_map, List.mem_range]
      refine ⟨q, List.mem_filter.mpr ⟨old, ?_⟩, f, bound, rfl⟩
      cases stopping : stopAtEnd
      · simp [current]
      · simp [current, going' stopping]
  · -- what the round pushed is one call longer
    obtain ⟨r, -, extension⟩ := List.mem_flatMap.mp (next.subset new)
    obtain ⟨g, -, extended⟩ := Api.mem_extensions.mp extension
    have := Api.size_of_mem_layer (next.subset new)
    omega

/-- The fast rounds from length `len` keep the pool a part of the layers up to `len + fuel` and the
marks its last functions, and reach the target or visit every function that extends an unended
pooled sequence shorter than `len + fuel`. -/
theorem bfsLayers_fast : ∀ (fuel len : Nat) {s : Search}, s.FastLevel api stopAtEnd len →
    (s.bfsLayers stopAtEnd true fuel len).pool.toList.Sublist
        (api.layers stopAtEnd (len + fuel)) ∧
      (s.bfsLayers stopAtEnd true fuel len).Marked ∧
      ((s.bfsLayers stopAtEnd true fuel len).allVisited = true ∨
        (s.bfsLayers stopAtEnd true fuel len).ClosedBelow stopAtEnd (len + fuel))
  | 0, _, _, level => ⟨level.sublist, level.marked, .inr level.closed⟩
  | fuel + 1, len, s, level => by
    rw [bfsLayers]
    split
    · -- nothing pooled is `len` calls long, so the whole pool is below `len` and closed
      rename_i short
      rw [Array.all_eq_true_iff_forall_mem] at short
      refine ⟨level.sublist.trans (Api.layers_sublist len _), level.marked, .inr ?_⟩
      intro q pooled _
      exact level.closed q pooled (of_decide_eq_true (short q (Array.mem_toList_iff.mp pooled)))
    · have round := level.round
      dsimp only at round ⊢
      generalize s.extendLayer true (s.pool.toList.filter fun q =>
        q.size == len && !(stopAtEnd && s.api.isEnded q)) = result at round ⊢
      obtain ⟨t, stop⟩ := result
      obtain ⟨grown, marked, stopped, going⟩ := round
      dsimp only at grown marked stopped going ⊢
      cases stop with
      | true =>
        refine ⟨grown.trans ?_, marked, .inl (stopped rfl)⟩
        rw [show len + (fuel + 1) = len + 1 + fuel by omega]
        exact Api.layers_sublist _ _
      | false =>
        rw [show len + (fuel + 1) = len + 1 + fuel by omega]
        exact bfsLayers_fast fuel (len + 1) (going rfl)

/-- From an empty pool, fast breadth-first search pools some of the exhaustive search's sequences
in the same order and visits only functions it visits; it cuts a round short only at the coverage
target, and otherwise finishes its layers. -/
theorem fastBfs_subrun (empty : s.pool = #[]) (maxLen : Nat) (stopAtEnd : Bool) :
    (s.bfs maxLen stopAtEnd true).pool.toList.Sublist
        (s.bfs maxLen stopAtEnd false).pool.toList ∧
      (∀ f, (s.bfs maxLen stopAtEnd true).visited.getD f false = true →
        (s.bfs maxLen stopAtEnd false).visited.getD f false = true) ∧
      (∀ (t : Search) (frontier : List Sequence), (t.extendLayer true frontier).2 = true →
        (t.extendLayer true frontier).1.allVisited = true) ∧
      ((s.bfs maxLen stopAtEnd true).allVisited = true ∨
        (s.bfs maxLen stopAtEnd true).ClosedBelow stopAtEnd maxLen) := by
  by_cases positive : 1 ≤ maxLen
  · obtain ⟨full, fullMarked⟩ := bfs_exhaustive empty positive stopAtEnd
    have start : ({ s.resetVisited with pool := #[{}] } : Search).FastLevel s.api stopAtEnd 0 :=
      ⟨rfl, by simp [Api.layers, Api.layer], marked_start,
        fun _ _ short => absurd short (Nat.not_lt_zero _)⟩
    obtain ⟨sub, marked, ending⟩ := bfsLayers_fast maxLen 0 start
    rw [Nat.zero_add] at sub ending
    rw [← bfs_of_empty empty positive] at sub marked ending
    rw [← full] at sub
    exact ⟨sub, fun f => marked.visited_mono fullMarked fun q pooled => sub.subset pooled,
      extendLayer_stop, ending⟩
  · -- with no length to reach, both searches only forget their visits
    have idle : ∀ fast, s.bfs maxLen stopAtEnd fast = s.resetVisited := fun fast => by
      simp [bfs, Nat.lt_one_iff.mpr (by omega : maxLen = 0)]
    rw [idle, idle]
    exact ⟨List.Sublist.refl _, fun f visited => visited, extendLayer_stop,
      .inr fun _ _ short => absurd short (by omega)⟩

end Search

/-- Over `closingCatalog`, fast breadth-first search to three calls that stops at end functions
pools a part of what the exhaustive search pools, and visits no more. -/
theorem closingSearch_fastBfs_subrun :
    (closingSearch.bfs 3 true true).pool.toList.Sublist
        (closingSearch.bfs 3 true false).pool.toList ∧
      ∀ f, (closingSearch.bfs 3 true true).visited.getD f false = true →
        (closingSearch.bfs 3 true false).visited.getD f false = true := by
  obtain ⟨sub, visited, -, -⟩ := Search.fastBfs_subrun (s := closingSearch) rfl 3 true
  exact ⟨sub, visited⟩

end DriverSynth
