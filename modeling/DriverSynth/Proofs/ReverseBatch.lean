import DriverSynth.Proofs.ReverseCache
import DriverSynth.Proofs.SeedReplay
import Mathlib

/-! # Reverse construction of every function at once

Batch reverse construction empties the pool and builds backwards for each function in id order,
threading one memo through all the targets. Without a cycle among producers the memo changes
nothing (`ReverseMemo.Faithful`), so the batch pools exactly what reverse construction of each
function alone gives (`Search.reverseAll_eq_reverse?`). With a cycle a target can even be dropped
(`bytesLoopCatalog_reverseAll_drops_target`).
-/

namespace DriverSynth

namespace Api

variable {api : Api}

/-- The target's call is the last call of what `assemble` builds. -/
theorem assemble_lastFn? (target : Nat) (parts : List Sequence) (resolved : List Resolved) :
    (api.assemble target parts resolved).lastFn? = some target := by
  obtain ⟨_, calls⟩ := @assemble_calls api target parts resolved
  simp [Sequence.lastFn?, calls, Array.back?_push]

/-- What reverse construction builds ends in its target, a function of the API. -/
theorem reverse?_lastFn? {target : Nat} {q : Sequence} (found : api.reverse? target = some q) :
    q.lastFn? = some target ∧ target < api.size :=
  (reverseWith_keeps (P := fun f q => q.lastFn? = some f ∧ f < api.size)
    (fun target parts resolved marked _ _ =>
      ⟨assemble_lastFn? target parts resolved, lt_size_of_constructible marked⟩)
    (api.size + 1) target _ (ReverseMemo.keeps_new api _)).2.2 q found

/-- The bounds check of reverse construction passes on every function the catalog names: a
target looked up by name never ends the process. -/
theorem reverseChecked?_of_find? {name : String} {target : Nat}
    (found : api.catalog.find? name = some target) :
    api.reverseChecked? target = some (api.reverse? target) :=
  if_pos (Catalog.find?_eq_some_sig found).1

end Api

namespace Search

variable {s : Search} {rank : Nat → Nat}

/-- Without a cycle among producers, batch reverse construction pushes, onto the emptied search,
the sequence that reverse construction builds for each function that has one, in id order. -/
theorem reverseAll_eq_pushAll (ranked : ∀ f p, s.api.DependsOn f p → rank p < rank f) :
    s.reverseAll =
      s.clearPool.resetVisited.pushAll ((List.range s.api.size).filterMap s.api.reverse?) := by
  unfold Search.reverseAll
  extract_lets cleared api
  have ranked' : ∀ f p, api.DependsOn f p → rank p < rank f := ranked
  -- the memo stays faithful, with nothing marked as being resolved, target after target
  refine (foldl_prefix_invariant (fun (done : List Nat) (st : Search × ReverseMemo) =>
      st.1 = cleared.pushAll (done.filterMap api.reverse?) ∧ st.2.Faithful api ∧
        st.2.resolving = (ReverseMemo.new api).resolving)
    ⟨rfl, ReverseMemo.faithful_new api, rfl⟩ ?_ rfl).1
  rintro done f - ⟨t, memo⟩ - ⟨pooled, faithful, idle⟩
  obtain ⟨built, faithful', idle'⟩ := Api.reverseWith_faithful ranked' (api.size + 1) f memo
    faithful (idle ▸ Api.roomy_new api) (idle ▸ Api.clear_new api rank f)
  have fresh := Api.reverse?_eq_reverseFresh? ranked' f
  dsimp only at pooled ⊢
  rcases answer : api.reverseWith (api.size + 1) f memo with ⟨sub, memo', depends⟩
  rw [answer] at built faithful' idle'
  dsimp only at built faithful' idle'
  rw [List.filterMap_append, pushAll_append, ← pooled]
  cases sub with
  | none =>
    have none : api.reverse? f = none := fresh.trans built.symm
    exact ⟨by simp [none, pushAll], faithful', idle'.trans idle⟩
  | some q =>
    have some : api.reverse? f = some q := fresh.trans built.symm
    exact ⟨by simp [some, pushAll], faithful', idle'.trans idle⟩

/-- Without a cycle among producers, batch reverse construction pools, in id order, what reverse
construction builds for each function alone, and visits exactly those functions. -/
theorem reverseAll_eq_reverse? (ranked : ∀ f p, s.api.DependsOn f p → rank p < rank f) :
    s.reverseAll.pool.toList = (List.range s.api.size).filterMap s.api.reverse? ∧
      ∀ f, s.reverseAll.visited.getD f false = true ↔ (s.api.reverse? f).isSome := by
  rw [reverseAll_eq_pushAll ranked]
  -- the emptied search marks nothing, and every pooled sequence ends in its own function
  have start : (s.clearPool.resetVisited).Marked :=
    ⟨Array.size_replicate, fun f => by
      show (Array.replicate _ false).getD f false = true ↔ ∃ q ∈ ([] : List Sequence), _
      rw [getD_replicate_false]
      simp⟩
  have ends : ∀ q ∈ (List.range s.api.size).filterMap s.api.reverse?, ∃ g,
      s.api.reverse? g = some q ∧ q.lastFn? = some g ∧ g < s.api.size := by
    intro q member
    obtain ⟨g, -, found⟩ := List.mem_filterMap.mp member
    exact ⟨g, found, Api.reverse?_lastFn? found⟩
  have marked := start.pushAll fun q member f last => by
    obtain ⟨g, -, endsIn, bound⟩ := ends q member
    rw [endsIn] at last
    cases last
    exact bound
  refine ⟨by simp [pool_pushAll, Search.clearPool, Search.resetVisited], fun f => ?_⟩
  rw [marked.visited_iff, pool_pushAll]
  constructor
  · rintro ⟨q, member, last⟩
    obtain ⟨g, found, endsIn, -⟩ :=
      ends q (by simpa [Search.clearPool, Search.resetVisited] using member)
    rw [endsIn] at last
    cases last
    simp [found]
  · intro built
    obtain ⟨q, found⟩ := Option.isSome_iff_exists.mp built
    obtain ⟨last, bound⟩ := Api.reverse?_lastFn? found
    refine ⟨q, ?_, last⟩
    simpa [Search.clearPool, Search.resetVisited] using
      List.mem_filterMap.mpr ⟨f, List.mem_range.mpr bound, found⟩

end Search

/-- Over `sessionCatalog` every producer has a lower id than the function it feeds, so batch
reverse construction is reverse construction of each function alone. -/
theorem sessionSearch_reverseAll_eq_reverse? :
    (∀ f p, sessionSearch.api.DependsOn f p → id p < id f) ∧
      sessionSearch.reverseAll.pool.toList =
        (List.range sessionSearch.api.size).filterMap sessionSearch.api.reverse? ∧
      ∀ f, sessionSearch.reverseAll.visited.getD f false = true ↔
        (sessionSearch.api.reverse? f).isSome := by
  have within : ∀ f < 3, ∀ p < 3, sessionSearch.api.DependsOn f p → p < f := by
    decide +kernel
  have ranked : ∀ f p, sessionSearch.api.DependsOn f p → id p < id f :=
    fun f p depends => within f (Api.lt_size_of_constructible depends.1) p
      (Api.lt_size_of_constructible depends.2.1) depends
  exact ⟨ranked, Search.reverseAll_eq_reverse? ranked⟩

/-- `loopCatalog` with bytes: `n` makes its `A` from a `Vec<u8>`, and `t` takes a `B` and a
`Vec<u8>`. -/
def bytesLoopCatalog : Catalog where
  entries := #[
    ⟨{ name := "y", params := [.path "B" [] false], output := some (.path "A" [] false) },
      false, false⟩,
    ⟨{ name := "x", params := [.path "A" [] false], output := some (.path "B" [] false) },
      false, false⟩,
    ⟨{ name := "n", params := [.vec (.prim "u8")], output := some (.path "A" [] false) },
      false, false⟩,
    ⟨{ name := "m", output := some (.path "B" [] false) }, false, false⟩,
    ⟨{ name := "t", params := [.path "B" [] false, .vec (.prim "u8")] }, false, false⟩]

/-- Batch reverse construction drops `t`, which reverse construction alone builds as
`[m, y, x, t]`: the batch reuses the `[n, x]` it built for `x` while `y` was being resolved, and
`t` after it has two slots of variable length. -/
theorem bytesLoopCatalog_reverseAll_drops_target :
    ((Api.ofCatalog bytesLoopCatalog).reverse? 4).map Sequence.fns = some [3, 0, 1, 4] ∧
      (Search.new (Api.ofCatalog bytesLoopCatalog) {}).reverseAll.visited.getD 4 false = false ∧
      (Search.new (Api.ofCatalog bytesLoopCatalog) {}).reverseAll.pool.toList.map Sequence.fns =
        [[2, 1, 0], [2, 1], [2], [3]] := by
  decide +kernel

end DriverSynth
