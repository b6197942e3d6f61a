import DriverSynth.Sequence.Admit
import DriverSynth.Search.Config
import DriverSynth.Random.Twister

/-! # Searching for call sequences

A search keeps a pool of sequences and marks the functions that end a pooled sequence as
visited. Its forward strategies extend pooled sequences by one admitted call at a time:

* breadth-first (`bfs`): every sequence of each length, by every function, up to a length;
  optionally not past end functions, and optionally skipping visited functions and stopping once
  the coverage target is reached;
* deep breadth-first (`tryDeepBfs`): from scratch, as long as a length brings new functions or
  edges and the pool times the visited functions stays below a ceiling;
* random walk (`randomWalk`): a number of steps, each drawing a pooled sequence and a function.
-/

namespace DriverSynth

/-- The state of a search: the API, the settings with the tuning of the chosen library, the
random generator, the pool and the visited marks. -/
structure Search where
  api : Api
  config : SearchConfig
  tuning : Tuning
  rng : Twister
  pool : Array Sequence
  visited : Array Bool
deriving Inhabited

namespace Search

/-- A search with an empty pool and nothing visited. -/
def new (api : Api) (config : SearchConfig) : Search :=
  { api, config, tuning := config.tuning.lookup config.library, rng := Twister.seed config.seed,
    pool := #[], visited := Array.replicate api.size false }

/-- The number of visited functions. -/
def visitedCount (s : Search) : Nat := s.visited.toList.countP id

/-- The visited functions, ascending. -/
def visitedIds (s : Search) : List Nat := (List.range s.visited.size).filter (s.visited.getD · false)

/-- Forgets every visit. -/
def resetVisited (s : Search) : Search := { s with visited := Array.replicate s.api.size false }

/-- Empties the pool. -/
def clearPool (s : Search) : Search := { s with pool := #[] }

/-- Whether enough functions are visited: the tuning's target, or all when the target is 0 or
beyond the catalog. -/
def allVisited (s : Search) : Bool :=
  let target := s.tuning.targetCoverage.toNat
  let target := if target = 0 ∨ s.visited.size < target then s.visited.size else target
  target ≤ s.visitedCount

/-- Adds a sequence to the pool and marks its last function visited. -/
def push (s : Search) (q : Sequence) : Search :=
  let visited := match q.lastFn? with
    | some f => s.visited.setIfInBounds f true
    | none => s.visited
  { s with pool := s.pool.push q, visited }

/-- Extends each frontier sequence by each function; with `fast`, skips visited functions and
reports when the coverage target is reached, at which point it stops. -/
def extendLayer (fast : Bool) (s : Search) (frontier : List Sequence) : Search × Bool :=
  frontier.foldl (fun (s, stop) q =>
    (List.range s.api.size).foldl (fun (s, stop) f =>
      if stop || (fast && s.visited.getD f false) then (s, stop)
      else
        match s.api.extend? 0 q f with
        | none => (s, false)
        | some e =>
          let s := s.push e
          (s, fast && s.allVisited)) (s, stop)) (s, false)

/-- The breadth-first layers from length `len` on, at most `fuel` of them. -/
def bfsLayers (stopAtEnd fast : Bool) : Nat → Nat → Search → Search
  | 0, _, s => s
  | fuel + 1, len, s =>
    -- no pooled sequence is this long: every later layer is empty too
    if s.pool.all (·.size < len) then s
    else
      let frontier := s.pool.toList.filter fun q =>
        q.size == len && !(stopAtEnd && s.api.isEnded q)
      let (s, stop) := extendLayer fast s frontier
      if stop then s else bfsLayers stopAtEnd fast fuel (len + 1) s

/-- Breadth-first search up to `maxLen` calls, starting from the pool plus the empty sequence. -/
def bfs (s : Search) (maxLen : Nat) (stopAtEnd fast : Bool) : Search :=
  let s := s.resetVisited
  if maxLen < 1 then s
  else
    let s := if s.pool.any (·.size == 0) then s else { s with pool := s.pool.push {} }
    bfsLayers stopAtEnd fast maxLen 0 s

/-- Marks items as seen; reports whether one was new. -/
def markSeen (seen : Array Bool) (items : List Nat) : Array Bool × Bool :=
  items.foldl (fun (seen, fresh) i =>
    if seen.getD i true then (seen, fresh) else (seen.setIfInBounds i true, true)) (seen, false)

/-- The layers of a deep search from length `len` on, with the functions and edges seen so far. -/
def deepLayers (ceiling : Nat) : Nat → Nat → Array Bool → Array Bool → Search → Search
  | 0, _, _, _, s => s
  | fuel + 1, len, fns, edges, s =>
    if 2 < len && ceiling ≤ s.pool.size * s.visitedCount then s
    else
      let frontier := s.pool.toList.filter fun q => q.size == len && !s.api.isEnded q
      let (s, fns, edges, fresh) := frontier.foldl (fun acc q =>
        (List.range s.api.size).foldl (fun (s, fns, edges, fresh) f =>
          match s.api.extend? 0 q f with
          | none => (s, fns, edges, fresh)
          | some e =>
            let (fns, newFn) := markSeen fns e.covered
            let (edges, newEdge) := markSeen edges e.edges
            (s.push e, fns, edges, fresh || newFn || newEdge)) acc) (s, fns, edges, false)
      if fresh then deepLayers ceiling fuel (len + 1) fns edges s else s

/-- Deep breadth-first search from the empty sequence, lengthening while lengths bring new
coverage and the pool size times the visited count stays below `ceiling`. -/
def tryDeepBfs (s : Search) (ceiling : Nat) : Search :=
  let s := s.clearPool.resetVisited
  let n := s.api.size
  if n < 1 then s
  else
    let s := { s with pool := #[{}] }
    deepLayers ceiling n 0 (Array.replicate n false)
      (Array.replicate s.api.graph.numEdges false) s

/-- One step of a random walk: draws a pooled sequence and a function, and admits the call
unless the sequence has ended (with `stopAtEnd`) or reached `maxDepth` calls. -/
def walkStep (stopAtEnd : Bool) (maxDepth : Nat) (s : Search) : Search :=
  let (index, rng) := s.rng.upTo (s.pool.size - 1)
  let chosen := s.pool.getD index {}
  let (f, rng) := rng.upTo (s.api.size - 1)
  let s := { s with rng }
  if stopAtEnd && s.api.isEnded chosen then s
  else if 0 < maxDepth && maxDepth ≤ chosen.size then s
  else
    match s.api.extend? 0 chosen f with
    | some e => s.push e
    | none => s

/-- Random walk of `steps` steps from the empty sequence. -/
def randomWalk (s : Search) (steps : Nat) (stopAtEnd : Bool) (maxDepth : Nat) : Search :=
  let s := s.clearPool.resetVisited
  if s.api.size = 0 then s
  else
    let s := { s with pool := #[{}] }
    go steps s
where
  /-- The remaining steps. -/
  go : Nat → Search → Search
    | 0, s => s
    | n + 1, s => go n (walkStep stopAtEnd maxDepth s)

end Search

end DriverSynth
