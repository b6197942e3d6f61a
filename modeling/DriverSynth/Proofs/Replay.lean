import DriverSynth.Proofs.Pool

/-! # Pools that replay

A sequence replays when admitting its functions in order from the empty sequence builds it again.
Admission appends one call of its function (`Api.extend?_calls`), so every run of the forward
strategies pools only sequences that replay (`Search.Forward.pool_replays`). Coverage repair does
not: each merged prefix keeps its own bindings, while admission binds a parameter to the earliest
free producer, which may lie in an earlier prefix (`coverage_repair_rebinds`).
-/

namespace DriverSynth

namespace Api

variable {api : Api}

/-- Binding a parameter leaves the calls of the draft alone. -/
theorem bindParam_calls {base : Sequence} {fn k : Nat} {d d' : Draft}
    (bound : api.bindParam base fn d k = some d') : d'.seq.calls = d.seq.calls := by
  rcases bindParam_eq_some bound with ⟨-, rfl⟩ | ⟨j, id, -, rfl⟩
  · rfl
  · dsimp only
    split <;> rfl

/-- Admitting a call appends one call of the function, with the given stamp, to the calls. -/
theorem extend?_calls {stamp fn : Nat} {s s' : Sequence}
    (extended : api.extend? stamp s fn = some s') :
    ∃ args produces, s'.calls = s.calls.push ⟨fn, args, produces, stamp⟩ := by
  unfold extend? at extended
  dsimp only at extended
  split at extended
  · cases extended
  -- the unsafe mark and the trait leave the calls as they were
  split at extended
  · cases extended
    refine ⟨[], (api.catalog.sig fn).output.isSome, ?_⟩
    show Array.push _ _ = _
    congr 1
    split <;> split <;> rfl
  · split at extended
    · cases extended
    · rename_i d folded
      have drafted : d.seq.calls = s.calls := by
        refine foldlM_range_invariant (fun _ d => d.seq.calls = s.calls) ?_
          (fun _ _ _ _ same step => (bindParam_calls step).trans same) folded
        show (_ : Sequence).calls = _
        split <;> split <;> rfl
      split at extended
      · cases extended
      · cases extended
        exact ⟨d.args.reverse, (api.catalog.sig fn).output.isSome,
          by simp only [Sequence.append, foldl_use_calls, drafted]⟩

/-- Replaying functions with one more at the end admits that one to the replay of the others. -/
theorem replay?_concat (fns : List Nat) (fn : Nat) :
    api.replay? (fns ++ [fn]) = (api.replay? fns).bind fun s => api.extend? 0 s fn := by
  simp [replay?, List.foldlM_append]

/-- A sequence replays when admitting its functions in order, from the empty sequence, builds
it. -/
def Replays (api : Api) (s : Sequence) : Prop :=
  api.replay? (s.calls.toList.map (·.fn)) = some s

/-- Replaying is kept by admission. -/
theorem replays_admitClosed : api.AdmitClosed api.Replays where
  empty := rfl
  extend := by
    intro q q' fn replays extended
    obtain ⟨args, produces, calls⟩ := extend?_calls extended
    have fns : q'.calls.toList.map (·.fn) = q.calls.toList.map (·.fn) ++ [fn] := by
      simp [calls]
    unfold Replays at replays ⊢
    rw [fns, replay?_concat, replays]
    exact extended

end Api

namespace Search

/-- The searches that runs of the forward strategies alone reach from a fresh search over `api`
with `config`: breadth-first search with any length and flags, deep breadth-first search with
any ceiling, a random walk of any length and depth, and a seed replay that succeeds. -/
inductive Forward (api : Api) (config : SearchConfig) : Search → Prop
  | new : Forward api config (Search.new api config)
  | bfs {s : Search} (maxLen : Nat) (stopAtEnd fast : Bool) :
    Forward api config s → Forward api config (s.bfs maxLen stopAtEnd fast)
  | tryDeepBfs {s : Search} (ceiling : Nat) :
    Forward api config s → Forward api config (s.tryDeepBfs ceiling)
  | randomWalk {s : Search} (steps : Nat) (stopAtEnd : Bool) (maxDepth : Nat) :
    Forward api config s → Forward api config (s.randomWalk steps stopAtEnd maxDepth)
  | replay {s s' : Search} {chains : List SeedChain} {report : ReplayReport} :
    Forward api config s → s.replay chains = .ok (report, s') → Forward api config s'

variable {api : Api} {config : SearchConfig} {P : Sequence → Prop} {s : Search}

/-- A property that admission keeps holds of every sequence that a forward run pools. -/
theorem Forward.keeps (closed : api.AdmitClosed P) (run : Forward api config s) :
    s.Keeps api P := by
  induction run with
  | new => exact ⟨rfl, by simp [Search.new]⟩
  | bfs maxLen stopAtEnd fast _ ih => exact ih.bfs closed maxLen
  | tryDeepBfs ceiling _ ih => exact ih.tryDeepBfs closed ceiling
  | randomWalk steps stopAtEnd maxDepth _ ih => exact ih.randomWalk closed steps maxDepth
  | replay _ replayed ih => exact ih.replay closed replayed

/-- Every sequence that a run of the forward strategies pools is what admitting its functions in
order builds from the empty sequence: every admission succeeds, and the replay has the same
calls with the same bindings and the same covered edges. -/
theorem Forward.pool_replays (run : Forward api config s) :
    ∀ q ∈ s.pool.toList, api.replay? (q.calls.toList.map (·.fn)) = some q :=
  (run.keeps Api.replays_admitClosed).pooled

end Search

theorem getD_mem_toList {α : Type} {xs : Array α} {i : Nat} {fallback : α}
    (bound : i < xs.size) : xs.getD i fallback ∈ xs.toList := by
  rw [Array.getD_eq_getD_getElem?, Array.getElem?_eq_getElem bound, Option.getD_some]
  exact Array.getElem_mem_toList bound

/-- Three functions: `new_a` makes an `A`, `use_a` turns an `A` into a `B`, and `target` takes an
`A` and a `B`. -/
def chainCatalog : Catalog where
  entries := #[
    ⟨{ name := "new_a", output := some (.path "A" [] false) }, false, false⟩,
    ⟨{ name := "use_a", params := [.path "A" [] false], output := some (.path "B" [] false) },
      false, false⟩,
    ⟨{ name := "target", params := [.path "A" [] false, .path "B" [] false] }, false, false⟩]

/-- Breadth-first search up to two calls over `chainCatalog`; it pools `[]`, `[new_a]`,
`[new_a, new_a]` and `[new_a, use_a]`. -/
def chainBfs : Search := (Search.new (Api.ofCatalog chainCatalog) {}).bfs 2 false false

/-- The last sequence that search pools, `[new_a, use_a]`, is what admission builds. -/
theorem chain_bfs_replays :
    (Api.ofCatalog chainCatalog).replay? ((chainBfs.pool.getD 3 {}).calls.toList.map (·.fn)) =
      some (chainBfs.pool.getD 3 {}) := by
  have bound : 3 < chainBfs.pool.size := by decide +kernel
  exact Search.Forward.pool_replays (.bfs 2 false false .new) _ (getD_mem_toList bound)

/-- That sequence passes the `A` of `new_a` to `use_a` along a graph edge, and it keeps the
borrow discipline. -/
theorem chain_bfs_wellFormed :
    (chainBfs.pool.getD 3 {}).calls.toList.map (·.args) =
        [[], [.result 0 Access.move (some 0)]] ∧
      (chainBfs.pool.getD 3 {}).WellFormed (Graph.build chainCatalog) := by
  have bound : 3 < chainBfs.pool.size := by decide +kernel
  exact ⟨by decide +kernel,
    Search.Reachable.pool_wellFormed (.bfs 2 false false .new) _ (getD_mem_toList bound)⟩

/-- Coverage repair after that search covers `target` with a sequence that admission does not
build: it merges the prefixes `[new_a]` and `[new_a, use_a]`, so `use_a` keeps the second `A`,
where admitting `new_a, new_a, use_a, target` in order gives it the first. -/
theorem coverage_repair_rebinds :
    ∃ q ∈ chainBfs.coverUnvisited.1.pool.toList,
      (Api.ofCatalog chainCatalog).replay? (q.calls.toList.map (·.fn)) ≠ some q := by
  have bound : 4 < chainBfs.coverUnvisited.1.pool.size := by decide +kernel
  refine ⟨chainBfs.coverUnvisited.1.pool.getD 4 {}, ?_, fun replays => ?_⟩
  · exact getD_mem_toList bound
  · have bindings := congrArg (Option.map fun q => (q.calls.getD 2 default).args) replays
    revert bindings
    decide +kernel

end DriverSynth
