/-! # Search settings

Strategies name the ways a search can fill its pool. A tuning gives, per library, how many steps
a random walk takes and how many visited functions count as full coverage (0 meaning all of
them); a tuning table holds one tuning per library name, sorted by name, and a fallback for every
other library. The built-in table shortens the walk for a few libraries with slow functions and
sets coverage targets for some others.
-/

namespace DriverSynth

/-- The ways a search can fill its pool. -/
inductive Strategy where
  | bfs
  | fastBfs
  | bfsEndPoint
  | fastBfsEndPoint
  | randomWalk
  | randomWalkEndPoint
  | tryDeepBfs
  | directBackwardSearch
  | reverseConstruct
deriving Repr, DecidableEq, Inhabited

namespace Strategy

/-- Every strategy, in numeric order. -/
def all : List Strategy :=
  [.bfs, .fastBfs, .bfsEndPoint, .fastBfsEndPoint, .randomWalk, .randomWalkEndPoint, .tryDeepBfs,
    .directBackwardSearch, .reverseConstruct]

/-- The name of a strategy. -/
def name : Strategy → String
  | .bfs => "bfs"
  | .fastBfs => "fast_bfs"
  | .bfsEndPoint => "bfs_end_point"
  | .fastBfsEndPoint => "fast_bfs_end_point"
  | .randomWalk => "random_walk"
  | .randomWalkEndPoint => "random_walk_end_point"
  | .tryDeepBfs => "try_deep_bfs"
  | .directBackwardSearch => "direct_backward_search"
  | .reverseConstruct => "reverse_construct"

/-- The strategy of a name. -/
def ofName? (s : String) : Option Strategy := all.find? (·.name == s)

/-- The name of a strategy number; `"unknown"` for a number of none. -/
def nameOfNumber (n : Nat) : String := ((all[n]?).map name).getD "unknown"

end Strategy

/-- How a search behaves for one library. -/
structure Tuning where
  walkSteps : UInt64 := 100000
  targetCoverage : UInt64 := 0
deriving Repr, DecidableEq, Inhabited

/-- Tunings by library name, sorted by name, with a fallback for the other libraries. -/
structure TuningTable where
  entries : List (String × Tuning) := []
  fallback : Tuning := {}
deriving Repr, Inhabited

namespace TuningTable

/-- Sets the tuning of a library, replacing an earlier one. -/
def set (t : TuningTable) (library : String) (tuning : Tuning) : TuningTable :=
  { t with entries := go t.entries }
where
  /-- Inserts into the sorted entries. -/
  go : List (String × Tuning) → List (String × Tuning)
    | [] => [(library, tuning)]
    | (k, v) :: rest =>
      if library < k then (library, tuning) :: (k, v) :: rest
      else if library = k then (library, tuning) :: rest
      else (k, v) :: go rest

/-- The tuning of a library. -/
def lookup (t : TuningTable) (library : String) : Tuning :=
  ((t.entries.find? (·.1 == library)).map (·.2)).getD t.fallback

/-- The built-in table. -/
def withDefaults : TuningTable :=
  let table : TuningTable := {}
  let table := table.set "regex" { walkSteps := 10000, targetCoverage := 96 }
  let table := table.set "url" { walkSteps := 10000 }
  let table := table.set "time" { walkSteps := 10000 }
  let table := table.set "serde_json" { targetCoverage := 41 }
  table.set "clap" { targetCoverage := 66 }

end TuningTable

/-- The settings of a search. -/
structure SearchConfig where
  bfsMaxLen : UInt64 := 3
  tryDeepCeiling : UInt64 := 100000
  walkMaxDepth : UInt64 := 0
  seed : UInt64 := 0
  library : String := ""
  tuning : TuningTable := TuningTable.withDefaults
deriving Inhabited

end DriverSynth
