import DriverSynth.Search.Reverse

/-! # Running a strategy

`generate` runs a named strategy with the lengths, ceiling and depth of the search's settings and
the walk length of its tuning. The default generation is breadth-first search that stops at end
functions, followed by coverage repair.
-/

namespace DriverSynth

namespace Search

/-- Runs a strategy. -/
def generate (s : Search) : Strategy → Search
  | .bfs => s.bfs s.config.bfsMaxLen.toNat false false
  | .fastBfs => s.bfs s.config.bfsMaxLen.toNat false true
  | .bfsEndPoint => s.bfs s.config.bfsMaxLen.toNat true false
  | .fastBfsEndPoint => s.bfs s.config.bfsMaxLen.toNat true true
  | .randomWalk => s.randomWalk s.tuning.walkSteps.toNat false s.config.walkMaxDepth.toNat
  | .randomWalkEndPoint => s.randomWalk s.tuning.walkSteps.toNat true s.config.walkMaxDepth.toNat
  | .tryDeepBfs => s.tryDeepBfs s.config.tryDeepCeiling.toNat
  | .directBackwardSearch => s.backward
  | .reverseConstruct => s.reverseAll

/-- Breadth-first search to end functions, then coverage repair. -/
def generateDefault (s : Search) : Search := (s.generate .bfsEndPoint).coverUnvisited.1

end Search

end DriverSynth
