import DriverSynth.Search.Basic
import DriverSynth.Format.Catalog

/-! # A first look at a catalog

Exploring a catalog builds its dependency graph and runs a short search: breadth-first, two calls
deep, not past end functions, skipping visited functions, with the default settings and seed 1.
The fuzz entry point reads a catalog from arbitrary text and explores it when it reads; it
answers 0 whatever the text, unless a bounds check ends the process: one of graph construction
(`Graph.buildFits`), or one of a lookup that the search makes (`Api.admitAborts`).
-/

namespace DriverSynth

namespace Search

/-- `extendLayer`, ended (`none`) at the first admission that ends the process. -/
def extendLayerChecked (fast : Bool) (s : Search) (frontier : List Sequence) :
    Option (Search × Bool) :=
  frontier.foldlM (fun (s, stop) q =>
    (List.range s.api.size).foldlM (fun (s, stop) f =>
      if stop || (fast && s.visited.getD f false) then some (s, stop)
      else if s.api.admitAborts q f then none
      else
        match s.api.extend? 0 q f with
        | none => some (s, false)
        | some e =>
          let s := s.push e
          some (s, fast && s.allVisited)) (s, stop)) (s, false)

/-- `bfsLayers`, ended at the first admission that ends the process. -/
def bfsLayersChecked (stopAtEnd fast : Bool) : Nat → Nat → Search → Option Search
  | 0, _, s => some s
  | fuel + 1, len, s =>
    if s.pool.all (·.size < len) then some s
    else
      let frontier := s.pool.toList.filter fun q =>
        q.size == len && !(stopAtEnd && s.api.isEnded q)
      match extendLayerChecked fast s frontier with
      | none => none
      | some (s, stop) => if stop then some s else bfsLayersChecked stopAtEnd fast fuel (len + 1) s

/-- `bfs`, ended at the first admission that ends the process. -/
def bfsChecked (s : Search) (maxLen : Nat) (stopAtEnd fast : Bool) : Option Search :=
  let s := s.resetVisited
  if maxLen < 1 then some s
  else
    let s := if s.pool.any (·.size == 0) then s else { s with pool := s.pool.push {} }
    bfsLayersChecked stopAtEnd fast maxLen 0 s

end Search

/-- The search state after the short breadth-first search over a catalog, or `none` when a lookup
of the search ends the process. -/
def Catalog.explore (c : Catalog) : Option Search :=
  (Search.new (Api.ofCatalog c) { seed := 1 }).bfsChecked 2 true true

/-- How the fuzz entry point ends on a text. -/
inductive FuzzEnd where
  /-- The text is no catalog. -/
  | unread
  /-- A bounds check fails, and the process ends. -/
  | aborted
  /-- The catalog was explored. -/
  | explored (s : Search)

/-- What the fuzz entry point does with a text: it explores the catalog the text reads as, unless
building its graph or exploring fails a bounds check. -/
def fuzzRun (json : JsonCodec) (text : String) : FuzzEnd :=
  match Catalog.parse json text with
  | .ok c =>
    if Graph.buildFits c then
      match c.explore with
      | some s => .explored s
      | none => .aborted
    else .aborted
  | .error _ => .unread

/-- The answer of the fuzz entry point: 0, whatever the text and whatever its run found, unless
the process has ended first (`none`). -/
def fuzzEntry (json : JsonCodec) (text : String) : Option Nat :=
  match fuzzRun json text with
  | .aborted => none
  | _ => some 0

end DriverSynth
