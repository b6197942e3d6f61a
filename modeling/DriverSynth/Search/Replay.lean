import DriverSynth.Search.Basic
import DriverSynth.Fault

/-! # Replaying seed chains

A seed chain is a list of function names seen called in that order in a corpus, with how often.
Replay drops the chains that name a function outside the catalog, adds up the frequencies of the
functions of the others, and then, from an empty pool, admits each kept chain's calls one after
the other, pooling every admitted prefix, until a call is refused.

When there are chains and every one is dropped, the corpus belongs to another catalog: replay
fails and leaves the search as it was.
-/

namespace DriverSynth

/-- Function names called in order, with the number of times the corpus shows them. -/
structure SeedChain where
  functions : List String
  frequency : Int64 := 1
deriving Repr, Inhabited

/-- What a replay found. -/
structure ReplayReport where
  totalFunctions : Nat
  chainsReplayed : Nat
  chainsDropped : Nat
  sequencesAdded : Nat
  /-- Summed frequency of each function of the kept chains, sorted by name. -/
  corpusFrequency : List (String × Int64)
  /-- Functions of the corpus that replay admitted, sorted by name. -/
  covered : List String
  /-- Functions of the corpus that replay never admitted, sorted by name. -/
  uncovered : List String
deriving Repr, Inhabited

/-- The catalog functions that the corpus never names. -/
def ReplayReport.notInCorpus (r : ReplayReport) : Nat := r.totalFunctions - r.corpusFrequency.length

/-- Adds to the frequency of a name in a list sorted by name; sums wrap at 64 bits. -/
def addFrequency (name : String) (f : Int64) : List (String × Int64) → List (String × Int64)
  | [] => [(name, f)]
  | (k, v) :: rest =>
    if name < k then (name, f) :: (k, v) :: rest
    else if name = k then (k, v + f) :: rest
    else (k, v) :: addFrequency name f rest

namespace Search

/-- Admits the calls of one chain in order from the empty sequence, pooling each admitted
prefix; returns the functions admitted. -/
def replayChain (s : Search) (ids : List Nat) : Search × List Nat × Nat :=
  let (s, _, admitted, added, _) := ids.foldl (fun (s, q, admitted, added, going) id =>
    if !going then (s, q, admitted, added, going)
    else
      match s.api.extend? 0 q id with
      | none => (s, q, admitted, added, false)
      | some e => (s.push e, e, admitted ++ [id], added + 1, true))
    (s, ({} : Sequence), ([] : List Nat), 0, true)
  (s, admitted, added)

/-- Replays seed chains into a fresh pool. -/
def replay (s : Search) (chains : List SeedChain) : Except Fault (ReplayReport × Search) :=
  let resolve (chain : SeedChain) : Option (List Nat) := chain.functions.mapM s.api.catalog.find?
  let kept := chains.filterMap fun chain => (resolve chain).map (chain, ·)
  let frequency := kept.foldl (fun acc (chain, _) =>
    chain.functions.foldl (fun acc name => addFrequency name chain.frequency acc) acc) []
  if !chains.isEmpty && kept.isEmpty then .error (.seedsOutsideCatalog chains.length)
  else
    let s := s.clearPool.resetVisited
    let (s, covered, added) := kept.foldl (fun (s, covered, added) (_, ids) =>
      let (s, admitted, more) := s.replayChain ids
      (s, covered ++ admitted, added + more)) (s, ([] : List Nat), 0)
    let reached (name : String) : Bool :=
      match s.api.catalog.find? name with
      | some id => covered.contains id
      | none => false
    let report : ReplayReport :=
      { totalFunctions := s.api.size
        chainsReplayed := kept.length
        chainsDropped := chains.length - kept.length
        sequencesAdded := added
        corpusFrequency := frequency
        covered := (frequency.map (·.1)).filter reached
        uncovered := (frequency.map (·.1)).filter (!reached ·) }
    .ok (report, s)

end Search

end DriverSynth
