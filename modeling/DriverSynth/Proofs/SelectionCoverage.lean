import DriverSynth.Proofs.Selection
import Mathlib.Data.List.Perm.Subperm
import Mathlib.Data.List.Nodup

/-! # What the greedy selection covers

With room for every valid driver and no stop at all functions, the heuristic selection covers
every function a valid driver calls, unless it covers every edge, and every edge of each valid
driver without a variable-length slot (`Api.heuristic_coverage`). The variable-length tier ends as
soon as none of its drivers adds a function, so an edge that only such a driver covers can be lost
(`relayPool_heuristic_drops_edge`). The rounds end settled (`Greedy.Settled`).
-/

namespace DriverSynth

/-- The functions a sequence calls are functions of the API, and the edges it covers are edges of
its graph: so is every sequence built by admission, merging or reverse construction over it. -/
def Sequence.Over (api : Api) (q : Sequence) : Prop :=
  (∀ f ∈ q.covered, f < api.size) ∧ ∀ e ∈ q.edges, e < api.graph.numEdges

instance (api : Api) (q : Sequence) : Decidable (q.Over api) :=
  inferInstanceAs (Decidable (_ ∧ _))

/-- Sequence `i` adds no function to the picks `before` when each of its functions is called by
one of them. -/
theorem freshFns_eq_zero {pool : Array Sequence} {before : List Nat} {i : Nat} :
    freshFns pool before i = 0 ↔
      ∀ f ∈ (pool.getD i {}).covered, ∃ j ∈ before, f ∈ (pool.getD j {}).covered := by
  unfold freshFns
  simp [List.countP_eq_zero, List.all_eq_true]

/-- Sequence `i` adds no edge to the picks `before` when each of its edges is covered by one of
them. -/
theorem freshEdges_eq_zero {pool : Array Sequence} {before : List Nat} {i : Nat} :
    freshEdges pool before i = 0 ↔
      ∀ e ∈ (pool.getD i {}).edges, ∃ j ∈ before, e ∈ (pool.getD j {}).edges := by
  unfold freshEdges
  simp [List.countP_eq_zero, List.all_eq_true]

theorem freshFns_of_mem {pool : Array Sequence} {before : List Nat} {i : Nat}
    (picked : i ∈ before) : freshFns pool before i = 0 :=
  freshFns_eq_zero.mpr fun _ called => ⟨i, picked, called⟩

theorem freshEdges_of_mem {pool : Array Sequence} {before : List Nat} {i : Nat}
    (picked : i ∈ before) : freshEdges pool before i = 0 :=
  freshEdges_eq_zero.mpr fun _ covered => ⟨i, picked, covered⟩

-- A function that comes with the picks stays with them, whatever is picked after.
theorem freshFns_append {pool : Array Sequence} {before : List Nat} {i : Nat}
    (nothing : freshFns pool before i = 0) (more : List Nat) :
    freshFns pool (before ++ more) i = 0 := by
  refine freshFns_eq_zero.mpr fun f called => ?_
  obtain ⟨j, earlier, calls⟩ := freshFns_eq_zero.mp nothing f called
  exact ⟨j, List.mem_append_left more earlier, calls⟩

/-- An ascending list of numbers below `n`, `n` of them, holds every number below `n`. -/
theorem mem_of_length_eq {marked : List Nat} {n : Nat} (sorted : marked.Pairwise (· < ·))
    (below : ∀ x ∈ marked, x < n) (counted : marked.length = n) {x : Nat} (bound : x < n) :
    x ∈ marked := by
  have within : marked ⊆ List.range n := fun y member => List.mem_range.mpr (below y member)
  have distinct : marked.Nodup := sorted.imp Nat.ne_of_lt
  have all := (distinct.subperm within).perm_of_length_le (by simp [counted])
  exact all.mem_iff.mpr (List.mem_range.mpr bound)

namespace Greedy

variable {api : Api} {config : SelectConfig} {pool : Array Sequence} {g : Greedy}

/-- Once the rounds have left the first tier, every function of a valid driver with a
variable-length slot comes with the picks: the tier ends only when no such driver adds one. -/
def TierCovered (pool : Array Sequence) (g : Greedy) : Prop :=
  g.variableTier = false → ∀ i < pool.size, (pool.getD i {}).isValidDriver = true →
    (pool.getD i {}).varCount ≠ 0 → freshFns pool g.selected i = 0

/-- How rounds end that have room for every valid driver and do not stop at all functions:
every edge of a graph with edges covered; or no valid driver left that adds a function, nor,
without a variable-length slot, an edge. -/
def Settled (api : Api) (pool : Array Sequence) (g : Greedy) : Prop :=
  (api.graph.numEdges ≠ 0 ∧ ∀ e < api.graph.numEdges, e ∈ g.edges) ∨
    ∀ i < pool.size, (pool.getD i {}).isValidDriver = true →
      freshFns pool g.selected i = 0 ∧
        ((pool.getD i {}).varCount = 0 → freshEdges pool g.selected i = 0)

theorem tierCovered_start : (Greedy.start pool).TierCovered pool := by
  intro leaving
  simp [Greedy.start] at leaving

theorem TierCovered.pick (covered : g.TierCovered pool) (q : Candidate) :
    (g.pick q).TierCovered pool :=
  fun leaving i bound valid slots => freshFns_append (covered leaving i bound valid slots) _

/-- Leaving the first tier when no open candidate adds a function covers the tier's functions:
the picked drivers call theirs, and the others are open. -/
theorem Records.tierCovered_leaveTier (records : g.Records pool) (tier : g.variableTier = true)
    (nothing : ∀ q ∈ driverCandidates pool, g.Open q → (g.key q).1 = 0) :
    ({ g with variableTier := false } : Greedy).TierCovered pool := by
  intro _ i bound valid slots
  show freshFns pool g.selected i = 0
  by_cases picked : i ∈ g.selected
  · exact freshFns_of_mem picked
  have cand := candidate_mem bound valid
  have isOpen := records.open_unpicked picked (by simpa [tier] using slots)
  have zero := nothing _ cand isOpen
  rwa [records.key_eq cand] at zero

/-- Rounds that have picked every valid driver have settled. -/
theorem settled_of_picks_all
    (all : ∀ i < pool.size, (pool.getD i {}).isValidDriver = true → i ∈ g.selected) :
    g.Settled api pool :=
  .inr fun i bound valid =>
    ⟨freshFns_of_mem (all i bound valid), fun _ => freshEdges_of_mem (all i bound valid)⟩

/-- A sound selection at least as long as the list of candidates has picked every valid driver:
its picks are distinct indices of candidates. -/
theorem Sound.picks_all (sound : g.Sound api config pool)
    (many : (driverCandidates pool).length ≤ g.selected.length) :
    ∀ i < pool.size, (pool.getD i {}).isValidDriver = true → i ∈ g.selected := by
  intro i bound valid
  have within : g.selected ⊆ (driverCandidates pool).map (·.index) := fun j picked => by
    obtain ⟨range, validJ⟩ := sound.valid j picked
    exact List.mem_map.mpr ⟨_, candidate_mem range validJ, rfl⟩
  have all := (sound.nodup.subperm within).perm_of_length_le (by simpa using many)
  exact all.mem_iff.mpr (List.mem_map.mpr ⟨_, candidate_mem bound valid, rfl⟩)

/-- Rounds that stop in the second tier, with no open candidate adding a function or an edge,
have settled: an unpicked driver without a variable-length slot is open, and one with such a slot
has its functions covered since the first tier ended. -/
theorem Records.settled_of_exhausted (records : g.Records pool) (covered : g.TierCovered pool)
    (tier : g.variableTier = false)
    (nothing : ∀ q ∈ driverCandidates pool, g.Open q → (g.key q).1 = 0 ∧ (g.key q).2.1 = 0) :
    g.Settled api pool := by
  refine .inr fun i bound valid => ?_
  by_cases picked : i ∈ g.selected
  · exact ⟨freshFns_of_mem picked, fun _ => freshEdges_of_mem picked⟩
  by_cases slots : (pool.getD i {}).varCount = 0
  · have cand := candidate_mem bound valid
    have isOpen := records.open_unpicked picked (by rw [slots, tier]; rfl)
    have zero := nothing _ cand isOpen
    rw [records.key_eq cand] at zero
    exact ⟨zero.1, fun _ => zero.2⟩
  · exact ⟨covered tier i bound valid slots, fun fixed => absurd fixed slots⟩

/-- Rounds that stop on a test after a pick have settled, with room for every valid driver and no
stop at all functions: they have picked every candidate, or covered as many edges as the graph
has, which are then all its edges. -/
theorem Sound.settled_of_finished {toCover : Nat} (sound : g.Sound api config pool)
    (inApi : ∀ i < pool.size, (pool.getD i {}).Over api)
    (allFns : config.stopAtAllFunctions = false)
    (finished : Finished api config (driverCandidates pool) toCover g) : g.Settled api pool := by
  rcases finished with all | ⟨edges, counted⟩ | ⟨stops, -⟩
  · exact settled_of_picks_all (sound.picks_all (by omega))
  · have below : ∀ e ∈ g.edges, e < api.graph.numEdges := fun e covered => by
      obtain ⟨j, picked, member⟩ := (sound.records.edges_iff e).mp covered
      exact (inApi j (sound.valid j picked).1).2 e member
    exact .inl ⟨edges, fun e bound => mem_of_length_eq sound.records.edges_sorted below counted bound⟩
  · rw [allFns] at stops
    cases stops

end Greedy

namespace Api

variable {api : Api} {config : SelectConfig} {pool : Array Sequence} {toCover : Nat}

/-- With room for every valid driver and no stop at all functions, rounds with more fuel than
rounds pending settle: each round stops settled, or leaves the first tier with its functions
covered, or picks, keeping the rounds sound. -/
theorem greedyRounds_settled (inApi : ∀ i < pool.size, (pool.getD i {}).Over api)
    (allFns : config.stopAtAllFunctions = false)
    (room : (driverCandidates pool).length ≤ config.maxSequences) :
    ∀ fuel (g : Greedy), g.Sound api config pool → g.TierCovered pool →
      g.pending (driverCandidates pool) < fuel →
      (api.greedyRounds config (driverCandidates pool) toCover fuel g).Settled api pool
  | 0, _, _, _, short => absurd short (Nat.not_lt_zero _)
  | fuel + 1, g, sound, covered, short => by
    rcases greedyRounds_step (driverCandidates_sorted pool) g with
      ⟨full | ⟨tier, nothing⟩, stays⟩ | ⟨tier, nothing, leaves⟩ |
        ⟨q, ⟨member, isOpen, -, -, gain, top⟩, roomLeft, firstGain, ⟨finished, ends⟩ | goes⟩
    · rw [stays]
      exact Greedy.settled_of_picks_all (sound.picks_all (by omega))
    · rw [stays]
      exact sound.records.settled_of_exhausted covered tier nothing
    · rw [leaves]
      have fewer := g.pending_leaveTier tier (driverCandidates pool)
      exact greedyRounds_settled inApi allFns room fuel _ sound.leaveTier
        (sound.records.tierCovered_leaveTier tier nothing) (by omega)
    · rw [ends]
      exact (sound.pick member isOpen roomLeft firstGain gain top).settled_of_finished inApi
        allFns finished
    · rw [goes]
      have fewer := g.pending_pick sound.records member (mem_driverCandidates.mp member).1 isOpen
      exact greedyRounds_settled inApi allFns room fuel _
        (sound.pick member isOpen roomLeft firstGain gain top) (covered.pick q) (by omega)

/-- With room for every valid driver and no stop at all functions, heuristic selection covers only
edges of valid drivers, every edge of each fixed-length one, and every function of each unless it
covers every edge of the graph. -/
theorem heuristic_coverage (inApi : ∀ i < pool.size, (pool.getD i {}).Over api)
    (allFns : config.stopAtAllFunctions = false)
    (room : (driverCandidates pool).length ≤ config.maxSequences) :
    (∀ e, (∃ q ∈ api.heuristic config pool, e ∈ q.edges) →
        ∃ i < pool.size, (pool.getD i {}).isValidDriver = true ∧ e ∈ (pool.getD i {}).edges) ∧
      (∀ i < pool.size, (pool.getD i {}).isValidDriver = true → (pool.getD i {}).varCount = 0 →
        ∀ e ∈ (pool.getD i {}).edges, ∃ q ∈ api.heuristic config pool, e ∈ q.edges) ∧
      ((api.graph.numEdges ≠ 0 ∧
          ∀ e < api.graph.numEdges, ∃ q ∈ api.heuristic config pool, e ∈ q.edges) ∨
        ∀ f, (∃ q ∈ api.heuristic config pool, f ∈ q.covered) ↔
          ∃ i < pool.size, (pool.getD i {}).isValidDriver = true ∧ f ∈ (pool.getD i {}).covered) := by
  let g := api.greedyRounds config (driverCandidates pool) (reachCount pool)
    ((driverCandidates pool).length + 2) (Greedy.start pool)
  have sound : g.Sound api config pool := greedyRounds_sound _ _ Greedy.sound_start
  have settled : g.Settled api pool := by
    have start := (Greedy.start pool).pending_le (driverCandidates pool)
    exact greedyRounds_settled inApi allFns room _ _ Greedy.sound_start Greedy.tierCovered_start
      (by omega)
  -- the selection is the sequences of the picks, which are valid drivers
  have picks : ∀ P : Sequence → Prop,
      (∃ q ∈ api.heuristic config pool, P q) ↔ ∃ j ∈ g.selected, P (pool.getD j {}) := by
    intro P
    show (∃ q ∈ g.selected.map (pool.getD · {}), P q) ↔ _
    simp
  have fromDrivers : ∀ P : Sequence → Prop, (∃ q ∈ api.heuristic config pool, P q) →
      ∃ i < pool.size, (pool.getD i {}).isValidDriver = true ∧ P (pool.getD i {}) := by
    intro P selected
    obtain ⟨j, picked, holds⟩ := (picks P).mp selected
    obtain ⟨range, valid⟩ := sound.valid j picked
    exact ⟨j, range, valid, holds⟩
  refine ⟨fun e => fromDrivers (e ∈ ·.edges), fun i bound valid slots e covers => ?_, ?_⟩
  · refine (picks _).mpr ?_
    rcases settled with ⟨-, marked⟩ | fresh
    · exact (sound.records.edges_iff e).mp (marked e ((inApi i bound).2 e covers))
    · exact freshEdges_eq_zero.mp ((fresh i bound valid).2 slots) e covers
  · rcases settled with ⟨edges, marked⟩ | fresh
    · exact .inl ⟨edges, fun e bound => (picks _).mpr ((sound.records.edges_iff e).mp
        (marked e bound))⟩
    · refine .inr fun f => ⟨fromDrivers (f ∈ ·.covered), fun ⟨i, bound, valid, called⟩ => ?_⟩
      exact (picks _).mpr (freshFns_eq_zero.mp (fresh i bound valid).1 f called)

end Api

/-- Three functions: `p` makes an `A`, `q` takes an `A` and makes one, and `c` takes an `A` and a
string. -/
def relayCatalog : Catalog where
  entries := #[
    ⟨{ name := "p", output := some (.path "A" [] false) }, false, false⟩,
    ⟨{ name := "q", params := [.path "A" [] false], output := some (.path "A" [] false) },
      false, false⟩,
    ⟨{ name := "c", params := [.path "A" [] false, .string] }, false, false⟩]

/-- The sequences `[p, c]` and `[p, q, c]` that admission builds: both end in `c`, whose string
makes a variable-length slot. -/
def relayPool : Array Sequence :=
  #[((Api.ofCatalog relayCatalog).replay? [0, 2]).getD {},
    ((Api.ofCatalog relayCatalog).replay? [0, 1, 2]).getD {}]

/-- From that pool the selection calls every function the valid drivers call. -/
theorem relayPool_heuristic_coverage :
    (∀ i < relayPool.size, (relayPool.getD i {}).Over (Api.ofCatalog relayCatalog)) ∧
      ({} : SelectConfig).stopAtAllFunctions = false ∧
      (driverCandidates relayPool).length ≤ ({} : SelectConfig).maxSequences ∧
      ∀ f, (∃ q ∈ (Api.ofCatalog relayCatalog).heuristic {} relayPool, f ∈ q.covered) ↔
        ∃ i < relayPool.size, (relayPool.getD i {}).isValidDriver = true ∧
          f ∈ (relayPool.getD i {}).covered := by
  have inApi : ∀ i < relayPool.size, (relayPool.getD i {}).Over (Api.ofCatalog relayCatalog) := by
    decide +kernel
  have room : (driverCandidates relayPool).length ≤ ({} : SelectConfig).maxSequences := by decide
  obtain ⟨-, -, ⟨-, edges⟩ | calls⟩ :=
    @Api.heuristic_coverage (Api.ofCatalog relayCatalog) {} relayPool inApi rfl room
  · -- the selection is `[p, q, c]` alone, which misses the edge from `p` into `c`
    have selection : (Api.ofCatalog relayCatalog).heuristic {} relayPool =
        [relayPool.getD 1 {}] := rfl
    obtain ⟨q, selected, covers⟩ := edges 1 (by decide)
    rw [selection, List.mem_singleton] at selected
    rw [selected] at covers
    exact absurd covers (by decide)
  · exact ⟨inApi, rfl, room, calls⟩

/-- From that pool the selection takes `[p, q, c]` alone and loses the edge from `p` into `c`,
which only `[p, c]` covers, though the limit leaves room and it does not stop at all functions. -/
theorem relayPool_heuristic_drops_edge :
    (driverCandidates relayPool).length ≤ ({} : SelectConfig).maxSequences ∧
      ({} : SelectConfig).stopAtAllFunctions = false ∧
      (relayPool.getD 0 {}).isValidDriver = true ∧ 1 ∈ (relayPool.getD 0 {}).edges ∧
      (Api.ofCatalog relayCatalog).heuristic {} relayPool = [relayPool.getD 1 {}] ∧
      1 ∉ (relayPool.getD 1 {}).edges :=
  ⟨by decide, rfl, by decide, by decide, rfl, by decide⟩

end DriverSynth
