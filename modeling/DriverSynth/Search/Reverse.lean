import DriverSynth.Search.Basic

/-! # Building sequences backwards

A function is constructible when it is not generic and each parameter is decodable or has an edge
from another constructible function; `constructible` is that least set, found by passes. Reverse
construction builds a sequence ending in a target from the first constructible producer of each
non-fuzzable parameter that can itself be built, skipping producers still being built, and
remembers successes and the failures that did not depend on a cycle. Coverage repair
(`coverUnvisited`) admits unvisited functions to merged pooled prefixes, pass after pass.
-/

namespace DriverSynth

namespace Api

/-- Whether each parameter of `f` can be supplied when the functions marked in `known` can be
built. -/
def satisfiable (api : Api) (known : Array Bool) (f : Nat) : Bool :=
  let producers := api.graph.producersOf f
  (List.range (api.catalog.sig f).params.length).all fun k =>
    let c := api.paramClass f k
    match c.kind with
    | .unencodable => false
    | .fixed | .variable => true
    | .notFuzzable =>
      producers.any fun p => p != f && known.getD p false && !(api.graph.between p f k).isEmpty

/-- One pass over the catalog, marking each function that can now be built; marks take effect
at once. Reports whether it marked one. -/
def constructiblePass (api : Api) (known : Array Bool) : Array Bool × Bool :=
  (List.range api.size).foldl (fun (known, changed) f =>
    if known.getD f false || (api.catalog.sig f).kind == .generic then (known, changed)
    else if api.satisfiable known f then (known.setIfInBounds f true, true)
    else (known, changed)) (known, false)

/-- Passes until one marks nothing; each pass but the last marks a function, so one more pass
than there are functions always suffices. -/
def constructibleFrom (api : Api) : Nat → Array Bool → Array Bool
  | 0, known => known
  | fuel + 1, known =>
    let (known, changed) := api.constructiblePass known
    if changed then api.constructibleFrom fuel known else known

/-- The functions that can be built backwards. -/
def constructible (api : Api) : Array Bool :=
  api.constructibleFrom (api.size + 1) (Array.replicate api.size false)

end Api

/-- What reverse construction remembers across targets. -/
structure ReverseMemo where
  constructible : Array Bool
  resolving : Array Bool
  built : Array (Option Sequence)
  unreachable : Array Bool
deriving Inhabited

namespace ReverseMemo

/-- A memo with nothing remembered. -/
def new (api : Api) : ReverseMemo :=
  ⟨api.constructible, Array.replicate api.size false, Array.replicate api.size none,
    Array.replicate api.size false⟩

end ReverseMemo

/-- A parameter bound to the result of a producer's sequence: the parameter, the edge, and the
index of the producer's sequence among the parts. -/
structure Resolved where
  param : Nat
  edge : Nat
  part : Nat

namespace Api

/-- The index of the last call of each part in the merge of the parts, when the first part starts
at `offset`. -/
def lastCallsFrom (offset : Nat) : List Sequence → List Nat
  | [] => []
  | part :: rest => (offset + part.size - 1) :: lastCallsFrom (offset + part.size) rest

/-- Binds parameter `k` of the target's call: a resolved parameter takes the last call of its part
(`lastCall` lists their indices) along its edge, recording the take and the edge; another gets a
new slot. -/
def bindAssembled (api : Api) (target : Nat) (resolved : List Resolved) (lastCall : List Nat)
    (acc : Sequence × List Source) (k : Nat) : Sequence × List Source :=
  let (seq, args) := acc
  match resolved.find? (·.param == k) with
  | some r =>
    let e := api.graph.edge r.edge
    let index := lastCall.getD r.part 0
    let seq := (seq.use index e.link.mode).coverEdge r.edge
    let seq := if e.link.needsUnsafe then seq.markUnsafe else seq
    (seq, args ++ [Source.result index e.link.mode (some r.edge)])
  | none =>
    let c := api.paramClass target k
    (seq.addSlot (api.slotFor target k c),
      args ++ [Source.slot seq.slots.size (if c.mutable then .exclusive else .copy)])

/-- The target's call on the merged parts: resolved parameters take the last call of their part,
the others get slots. -/
def assemble (api : Api) (target : Nat) (parts : List Sequence) (resolved : List Resolved) :
    Sequence :=
  let sig := api.catalog.sig target
  let merged := Sequence.merge 0 parts
  let merged := if sig.isUnsafe then merged.markUnsafe else merged
  let merged := match sig.traitPath with
    | some t => merged.addTrait t
    | none => merged
  let (seq, args) := (List.range sig.params.length).foldl
    (api.bindAssembled target resolved (lastCallsFrom 0 parts)) (merged, [])
  seq.append ⟨target, args, sig.output.isSome, 0⟩

/-- The first constructible function other than `target`, in id order, with an edge into parameter
`k` that `build` can build, and that edge; a producer still being built is skipped and noted in
`depends`. -/
def findProducer (api : Api) (build : Nat → ReverseMemo → Option Sequence × ReverseMemo × Bool)
    (target k : Nat) (depends : Bool) (memo : ReverseMemo) :
    Option (Sequence × Nat) × Bool × ReverseMemo :=
  (List.range api.size).foldl (fun (found, depends, memo) producer =>
    if found.isSome || producer == target || !memo.constructible.getD producer false then
      (found, depends, memo)
    else
      match api.graph.between producer target k with
      | [] => (found, depends, memo)
      | edge :: _ =>
        if memo.resolving.getD producer false then (found, true, memo)
        else
          let (sub, memo, dep) := build producer memo
          match sub with
          | some q => (some (q, edge), depends || dep, memo)
          | none => (found, depends || dep, memo))
    (none, depends, memo)

/-- The parameters of `target` in order, while each that is not fuzzable finds a producer: the
producers' sequences, the resolved parameters, whether every parameter was resolved, whether the
answer depended on a function still being built, and the memo. -/
def resolveParams (api : Api) (build : Nat → ReverseMemo → Option Sequence × ReverseMemo × Bool)
    (target : Nat) (memo : ReverseMemo) :
    List Sequence × List Resolved × Bool × Bool × ReverseMemo :=
  (List.range (api.catalog.sig target).params.length).foldl
    (fun (parts, resolved, ok, depends, memo) k =>
      if !ok || (api.paramClass target k).fuzzable then (parts, resolved, ok, depends, memo)
      else
        let (found, depends, memo) := api.findProducer build target k depends memo
        match found with
        | some (q, edge) =>
          (parts ++ [q], resolved ++ [⟨k, edge, parts.length⟩], ok, depends, memo)
        | none => (parts, resolved, false, depends, memo))
    (([] : List Sequence), ([] : List Resolved), true, false, memo)

/-- Builds a sequence ending in `target`. Also reports whether the answer depended on a function
still being built; `fuel` bounds the depth of producers being built at once. -/
def reverseWith (api : Api) : Nat → Nat → ReverseMemo → Option Sequence × ReverseMemo × Bool
  | 0, _, memo => (none, memo, false)
  | fuel + 1, target, memo =>
    if !memo.constructible.getD target false || memo.unreachable.getD target false then
      (none, memo, false)
    else
      match memo.built.getD target none with
      | some q => (some q, memo, false)
      | none =>
        if memo.resolving.getD target false then (none, memo, true)
        else
          let memo := { memo with resolving := memo.resolving.setIfInBounds target true }
          let (parts, resolved, ok, depends, memo) :=
            api.resolveParams (api.reverseWith fuel) target memo
          let memo := { memo with resolving := memo.resolving.setIfInBounds target false }
          let fail (memo : ReverseMemo) : Option Sequence × ReverseMemo × Bool :=
            (none, if depends then memo
              else { memo with unreachable := memo.unreachable.setIfInBounds target true }, depends)
          if !ok then fail memo
          else
            let q := api.assemble target parts resolved
            if 1 < q.varCount then fail memo
            else (some q, { memo with built := memo.built.setIfInBounds target (some q) }, depends)

/-- A sequence ending in `target`, built backwards with a fresh memo. -/
def reverse? (api : Api) (target : Nat) : Option Sequence :=
  (api.reverseWith (api.size + 1) target (ReverseMemo.new api)).1

/-- `reverse?` behind the bounds check of its target: `none` when the target is no function of
the API, where the process ends. -/
def reverseChecked? (api : Api) (target : Nat) : Option (Option Sequence) :=
  if target < api.size then some (api.reverse? target) else none

end Api

namespace Search

/-- Fills the pool with a backwards-built sequence for every function that has one. -/
def reverseAll (s : Search) : Search :=
  let s := s.clearPool.resetVisited
  let api := s.api
  (List.range api.size).foldl (fun (s, memo) f =>
    match api.reverseWith (api.size + 1) f memo with
    | (some q, memo, _) => (s.push q, memo)
    | (none, memo, _) => (s, memo)) (s, ReverseMemo.new api) |>.1

/-- The pooled sequences that may prefix a repair: not empty, not ended, without dead calls. -/
def candidates (s : Search) : List Nat :=
  (List.range s.pool.size).filter fun i =>
    let q := s.pool.getD i {}
    q.size != 0 && !s.api.isEnded q && !q.isDead

/-- The prefix for parameter `k` of `target`: among the candidates whose last function has an
edge into it, the first with slots, or else the last one. -/
def prefixFor (s : Search) (cands : List Nat) (target k : Nat) : Option Nat :=
  let fits := cands.filter fun i =>
    let last := ((s.pool.getD i {}).lastFn?).getD 0
    !(s.api.graph.between last target k).isEmpty
  match fits.find? (fun i => !(s.pool.getD i {}).slots.isEmpty) with
  | some i => some i
  | none => fits.getLast?

/-- One repair attempt for a target: prefixes for its parameters made by calls, merged and
extended by the target. -/
def repair? (s : Search) (cands : List Nat) (target : Nat) : Option Sequence := do
  let sig := s.api.catalog.sig target
  let prefixes ← (List.range sig.params.length).filterMapM fun k =>
    if (s.api.paramClass target k).kind != .notFuzzable then pure none
    else (s.prefixFor cands target k).map fun i => some (s.pool.getD i {})
  s.api.extend? 0 (Sequence.merge 0 prefixes) target

/-- Repair passes over the unvisited functions, at most `fuel` of them; each pass works from the
candidates at its start. Counts the functions covered. -/
def repairPasses : Nat → List Nat → Nat → Search → Search × Nat
  | 0, _, total, s => (s, total)
  | fuel + 1, unvisited, total, s =>
    let cands := s.candidates
    let (s, covered) := unvisited.foldl (fun (s, covered) target =>
      match s.repair? cands target with
      | some q => (s.push q, covered ++ [target])
      | none => (s, covered)) (s, [])
    if covered.isEmpty then (s, total)
    else repairPasses fuel (unvisited.filter (!covered.contains ·)) (total + covered.length) s

/-- Extends merged pooled prefixes by unvisited functions; the number covered. -/
def coverUnvisited (s : Search) : Search × Nat :=
  let unvisited := (List.range s.api.size).filter (!s.visited.getD · false)
  repairPasses unvisited.length unvisited 0 s

/-- Coverage repair from an empty pool. -/
def backward (s : Search) : Search := (s.clearPool.resetVisited.coverUnvisited).1

end Search

end DriverSynth
