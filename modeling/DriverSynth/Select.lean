import DriverSynth.Sequence.Admit
import DriverSynth.Random.Twister

/-! # Choosing drivers from a pool

A selection picks at most a given number of sequences of a pool as fuzz drivers. `heuristic` is
greedy over the valid drivers, first those with a variable-length slot: most new functions, then
most new edges, then fewest calls, the earliest on a tie. `random` draws distinct non-empty
sequences, `first` takes the sequences with slots in pool order, and `perFunctionRandom` draws, for
each required function not yet covered, an unused sequence that calls it. Statistics describe a
selection against the catalog and graph.
-/

namespace DriverSynth

/-- The ways of choosing drivers. -/
inductive Policy where
  | heuristic
  | random
  | first
  | perFunctionRandom
deriving Repr, DecidableEq, Inhabited

namespace Policy

/-- Every policy, in numeric order. -/
def all : List Policy := [.heuristic, .random, .first, .perFunctionRandom]

/-- The name of a policy. -/
def name : Policy → String
  | .heuristic => "heuristic"
  | .random => "random"
  | .first => "first"
  | .perFunctionRandom => "per_function_random"

/-- The policy of a name. -/
def ofName? (s : String) : Option Policy := all.find? (·.name == s)

/-- The name of a policy number; `"unknown"` for a number of none. -/
def nameOfNumber (n : Nat) : String := ((all[n]?).map name).getD "unknown"

end Policy

/-- The settings of a selection. -/
structure SelectConfig where
  maxSequences : Nat := 1000
  stopAtAllFunctions : Bool := false
  seed : UInt64 := 0
deriving Repr, Inhabited

/-- How much of the API a selection covers. -/
structure Stats where
  totalFunctions : Nat := 0
  validFunctions : Nat := 0
  totalEdges : Nat := 0
  sequenceCount : Nat := 0
  coveredFunctions : Nat := 0
  coveredEdges : Nat := 0
  totalCalls : Nat := 0
  maxLength : Nat := 0
  averageCallsPerFunction : Float := 0
  functionCoverage : Float := 0
  edgeCoverage : Float := 0
deriving Inhabited

/-- Adds items to a set of numbers, kept ascending without repeats. -/
def markAll (marked : List Nat) (items : List Nat) : List Nat :=
  items.foldl (fun acc i => insertOrdered i acc) marked

/-- The items not in a set. -/
def countFresh (marked : List Nat) (items : List Nat) : Nat :=
  items.countP (!marked.contains ·)

/-- The ratio of two counts as a double, 0 when the second is 0. -/
def ratio (a b : Nat) : Float := if b = 0 then 0 else Float.ofNat a / Float.ofNat b

namespace Api

/-- The functions none of whose parameters is unencodable. -/
def validFunctions (api : Api) : Nat :=
  (List.range api.size).countP fun f =>
    (List.range (api.catalog.sig f).params.length).all fun k =>
      (api.paramClass f k).kind != .unencodable

/-- The statistics of a selection. -/
def stats (api : Api) (selected : List Sequence) : Stats :=
  let coveredFunctions := (selected.foldl (fun acc q => markAll acc q.covered) []).length
  let coveredEdges := (selected.foldl (fun acc q => markAll acc q.edges) []).length
  let totalCalls := (selected.map (·.size)).foldl (· + ·) 0
  let valid := api.validFunctions
  { totalFunctions := api.size
    validFunctions := valid
    totalEdges := api.graph.numEdges
    sequenceCount := selected.length
    coveredFunctions
    coveredEdges
    totalCalls
    maxLength := (selected.map (·.size)).foldl max 0
    averageCallsPerFunction := ratio totalCalls coveredFunctions
    functionCoverage := ratio coveredFunctions valid
    edgeCoverage := ratio coveredEdges api.graph.numEdges }

end Api

/-- A valid driver of the pool as the greedy selection sees it. -/
structure Candidate where
  index : Nat
  size : Nat
  varying : Bool
  fns : List Nat
  edges : List Nat

/-- The valid drivers of a pool, in pool order, as the greedy selection sees them. -/
def driverCandidates (pool : Array Sequence) : List Candidate :=
  (List.range pool.size).filterMap fun i =>
    let q := pool.getD i {}
    if q.isValidDriver then some ⟨i, q.size, q.varCount != 0, q.covered, q.edges⟩ else none

/-- The state of a greedy selection: the chosen marks of the pool, the picks, the sets of
covered functions and edges, and the tier. -/
structure Greedy where
  chosen : Array Bool
  selected : List Nat
  fns : List Nat
  edges : List Nat
  variableTier : Bool

/-- The best unchosen candidate of the current tier: most new functions, then most new edges,
then fewest calls, the earliest on a tie; with its counts of new functions and edges. -/
def Greedy.best (g : Greedy) (cands : List Candidate) : Option Candidate × Nat × Nat :=
  let (best, bf, be) := cands.foldl (fun (best, bf, be) (q : Candidate) =>
    if g.chosen.getD q.index false || g.variableTier != q.varying then (best, bf, be)
    else
      let nf := countFresh g.fns q.fns
      let ne := countFresh g.edges q.edges
      let shorter := match best with
        | some b => q.size < b.size
        | none => false
      if bf < nf || (nf == bf && be < ne) || (nf == bf && ne == be && shorter)
      then (some q, nf, ne)
      else (best, bf, be)) ((none : Option Candidate), 0, 0)
  (best, bf, be)

namespace Api

/-- Greedy rounds, at most `fuel` of them. -/
def greedyRounds (api : Api) (config : SelectConfig) (cands : List Candidate) (toCover : Nat) :
    Nat → Greedy → Greedy
  | 0, g => g
  | fuel + 1, g =>
    if config.maxSequences ≤ g.selected.length then g
    else
      let (best, bf, be) := g.best cands
      if g.variableTier && bf == 0 then api.greedyRounds config cands toCover fuel
        { g with variableTier := false }
      else if !g.variableTier && bf == 0 && be == 0 then g
      else
        match best with
        | none => g
        | some q =>
          let g : Greedy :=
            { g with
              chosen := g.chosen.setIfInBounds q.index true
              selected := g.selected ++ [q.index]
              fns := markAll g.fns q.fns
              edges := markAll g.edges q.edges }
          if g.selected.length == cands.length then g
          else if api.graph.numEdges != 0 && g.edges.length == api.graph.numEdges then g
          else if config.stopAtAllFunctions && g.fns.length == toCover then g
          else api.greedyRounds config cands toCover fuel g

end Api

/-- The number of functions that the valid drivers of a pool call. -/
def reachCount (pool : Array Sequence) : Nat :=
  ((driverCandidates pool).foldl (fun acc q => markAll acc q.fns) []).length

/-- A greedy selection before its first round: nothing chosen, no function or edge covered, in
the tier of sequences with a variable-length slot. -/
def Greedy.start (pool : Array Sequence) : Greedy :=
  ⟨Array.replicate pool.size false, [], [], [], true⟩

namespace Api

/-- Greedy selection of valid drivers. -/
def heuristic (api : Api) (config : SelectConfig) (pool : Array Sequence) : List Sequence :=
  let cands := driverCandidates pool
  let g := api.greedyRounds config cands (reachCount pool) (cands.length + 2) (.start pool)
  g.selected.map (pool.getD · {})

end Api

/-- Distinct non-empty sequences, at most `limit`, each drawn from those left by `draw`, which
gives a number from 0 to its bound and the next state of the source. -/
def randomPickWith {γ : Type} (draw : γ → Nat → Nat × γ) (limit : Nat) (pool : Array Sequence)
    (source : γ) : List Sequence :=
  let remaining := (List.range pool.size).filter fun i => (pool.getD i {}).size != 0
  go remaining.length remaining source []
where
  /-- Draws from the remaining indices, at most `fuel` times. -/
  go : Nat → List Nat → γ → List Sequence → List Sequence
    | 0, _, _, acc => acc
    | fuel + 1, remaining, source, acc =>
      if limit ≤ acc.length || remaining.isEmpty then acc
      else
        let (pick, source) := draw source (remaining.length - 1)
        go fuel (remaining.eraseIdx pick) source (acc ++ [pool.getD (remaining.getD pick 0) {}])

/-- Distinct non-empty sequences drawn uniformly with the generator seeded by the settings. -/
def randomPick (config : SelectConfig) (pool : Array Sequence) : List Sequence :=
  randomPickWith Twister.upTo config.maxSequences pool (Twister.seed config.seed)

/-- The sequences with slots, in pool order. -/
def firstPick (config : SelectConfig) (pool : Array Sequence) : List Sequence :=
  ((pool.toList.filter (!·.slots.isEmpty)).take config.maxSequences)

/-- Per-function random selection over a list of required functions, at most `limit` sequences,
with the draws of `draw`. -/
def perFunctionPickWith {γ : Type} (draw : γ → Nat → Nat × γ) (limit : Nat)
    (pool : Array Sequence) (required : List Nat) (source : γ) : List Sequence :=
  go (required.length + 1) required (Array.replicate pool.size false) source []
where
  /-- Covers the remaining required functions, at most `fuel` rounds. -/
  go : Nat → List Nat → Array Bool → γ → List Sequence → List Sequence
    | 0, _, _, _, acc => acc
    | fuel + 1, toCover, used, rng, acc =>
      if limit ≤ acc.length then acc
      else
        match toCover with
        | [] => acc
        | next :: rest =>
          let unused := (List.range pool.size).filter fun i =>
            !used.getD i false && (pool.getD i {}).covered.contains next
          if unused.isEmpty then go fuel rest used rng acc
          else
            let (k, rng) := draw rng (unused.length - 1)
            let pick := unused.getD k 0
            let fns := (pool.getD pick {}).covered
            go fuel (toCover.filter (!fns.contains ·)) (used.setIfInBounds pick true) rng
              (acc ++ [pool.getD pick {}])

/-- Per-function random selection with the generator seeded by the settings. -/
def perFunctionPick (config : SelectConfig) (pool : Array Sequence) (required : List Nat) :
    List Sequence :=
  perFunctionPickWith Twister.upTo config.maxSequences pool required (Twister.seed config.seed)

namespace Api

/-- The functions that the pool's sequences call, ascending. -/
def poolFunctions (pool : Array Sequence) : List Nat :=
  pool.foldl (fun acc q => q.covered.foldl (fun acc f => insertOrdered f acc) acc) []

/-- Selects drivers from a pool by a policy, with the statistics of the selection. -/
def select (api : Api) (config : SelectConfig) (pool : Array Sequence) (policy : Policy) :
    List Sequence × Stats :=
  let selected := match policy with
    | .heuristic => api.heuristic config pool
    | .random => randomPick config pool
    | .first => firstPick config pool
    | .perFunctionRandom => perFunctionPick config pool (poolFunctions pool)
  (selected, api.stats selected)

/-- Per-function random selection over a given list of required functions, with statistics. -/
def selectCovering (api : Api) (config : SelectConfig) (pool : Array Sequence)
    (required : List Nat) : List Sequence × Stats :=
  let selected := perFunctionPick config pool required
  (selected, api.stats selected)

end Api

end DriverSynth
