import DriverSynth.Sequence.Basic
import DriverSynth.Graph

/-! # Admitting one more call

`Api.extend?` appends a call of a function when every parameter can be supplied under Rust's
borrow rules: a decodable parameter gets a new slot, an unencodable one refuses the call, and any
other takes the result of the earliest call not moved away with a graph edge that the call's
borrows allow. Generic functions are never called, and no sequence has two variable-length slots.
Looking up a triple without a key ends the process (`Graph.lookup?`); `Api.admitAborts` says when
admission gets that far.
-/

namespace DriverSynth

/-- The API that sequences are built from: its catalog and the catalog's dependency graph. -/
structure Api where
  catalog : Catalog
  graph : Graph
deriving Inhabited

/-- The borrows that one new call takes of earlier results. -/
structure Borrows where
  moved : List Nat := []
  exclusive : List Nat := []
  shared : List Nat := []
deriving Inhabited

namespace Borrows

/-- Whether the call may take the result of call `j` in the given mode. -/
def allows (b : Borrows) (j : Nat) (mode : Access) : Bool :=
  if b.moved.contains j || b.exclusive.contains j then false
  else
    match mode with
    | .move | .exclusive => !b.shared.contains j
    | .copy | .shared => true
    | .incompatible => false

/-- Notes that the call takes the result of call `j` in the given mode. -/
def record (b : Borrows) (j : Nat) (mode : Access) : Borrows :=
  match mode with
  | .move => { b with moved := j :: b.moved }
  | .exclusive => { b with exclusive := j :: b.exclusive }
  | _ => { b with shared := j :: b.shared }

end Borrows

namespace Api

/-- The API of a catalog. -/
def ofCatalog (c : Catalog) : Api := ⟨c, Graph.build c⟩

/-- The number of functions. -/
def size (api : Api) : Nat := api.catalog.size

/-- The fuzz class of parameter `k` of a function. -/
def paramClass (api : Api) (fn k : Nat) : FuzzClass :=
  let sig := api.catalog.sig fn
  (sig.params.getD k .unknown).fuzzClass sig.bindings

/-- The slot for parameter `k` of a function in a class: the parameter's type after the
function's bindings, or as declared when they do not bind it. -/
def slotFor (api : Api) (fn k : Nat) (c : FuzzClass) : Slot :=
  let sig := api.catalog.sig fn
  let declared := sig.params.getD k .unknown
  ⟨(declared.subst sig.bindings).getD declared, c.kind, c.minBytes, c.mutable⟩

/-- Whether the last call of a sequence is of an end function. -/
def isEnded (api : Api) (s : Sequence) : Bool :=
  match s.lastFn? with
  | some fn => api.catalog.isEnd fn
  | none => false

/-- A call being put together: the sequence so far, borrows, uses of results in order, and the
arguments bound so far, last first. -/
structure Draft where
  seq : Sequence
  borrows : Borrows := {}
  uses : List (Nat × Access) := []
  args : List Source := []

/-- The first earlier call whose result can feed parameter `k` of `fn`, with the edge to use. -/
def supplier? (api : Api) (base : Sequence) (borrows : Borrows) (fn k : Nat) :
    Option (Nat × Nat) :=
  (List.range base.size).findSome? fun j =>
    if base.isMoved j then none
    else
      let producer := (base.calls.getD j default).fn
      (api.graph.between producer fn k).find? (fun id => borrows.allows j (api.graph.edge id).link.mode)
        |>.map (j, ·)

/-- `supplier?` with the bounds checks of its lookups: `none` when it looks up a triple without a
key, which ends the process. -/
def supplierChecked? (api : Api) (base : Sequence) (borrows : Borrows) (fn k : Nat) :
    Option (Option (Nat × Nat)) :=
  (List.range base.size).findSomeM? fun j =>
    if base.isMoved j then some none
    else
      let producer := (base.calls.getD j default).fn
      (api.graph.lookup? producer fn k).map fun ids =>
        (ids.find? (fun id => borrows.allows j (api.graph.edge id).link.mode)).map (j, ·)

/-- Binds parameter `k` of `fn`, or fails. -/
def bindParam (api : Api) (base : Sequence) (fn : Nat) (d : Draft) (k : Nat) : Option Draft :=
  let c := api.paramClass fn k
  match c.kind with
  | .unencodable => none
  | .fixed | .variable =>
    let arg := Source.slot d.seq.slots.size (if c.mutable then .exclusive else .copy)
    some { d with seq := d.seq.addSlot (api.slotFor fn k c), args := arg :: d.args }
  | .notFuzzable =>
    match api.supplier? base d.borrows fn k with
    | none => none
    | some (j, id) =>
      let l := (api.graph.edge id).link
      let seq := d.seq.coverEdge id
      some { d with
        seq := if l.needsUnsafe then seq.markUnsafe else seq
        borrows := d.borrows.record j l.mode
        uses := d.uses ++ [(j, l.mode)]
        args := .result j l.mode (some id) :: d.args }

/-- The sequence with one more call of `fn`, stamped `stamp`, if the call can be admitted. -/
def extend? (api : Api) (stamp : Nat) (s : Sequence) (fn : Nat) : Option Sequence :=
  let sig := api.catalog.sig fn
  if sig.kind == .generic then none
  else
    let start := if sig.isUnsafe then s.markUnsafe else s
    let start := match sig.traitPath with
      | some t => start.addTrait t
      | none => start
    let finish (seq : Sequence) (args : List Source) : Sequence :=
      seq.append ⟨fn, args, sig.output.isSome, stamp⟩
    if sig.params.isEmpty then some (finish start [])
    else
      match (List.range sig.params.length).foldlM (bindParam api s fn) { seq := start } with
      | none => none
      | some d =>
        let seq := d.uses.foldl (fun acc (j, mode) => acc.use j mode) d.seq
        let seq := finish seq d.args.reverse
        if 1 < seq.varCount then none else some seq

/-- Whether admitting a call of `fn` ends the process: its parameters are bound in order, and the
search for the supplier of one that is not fuzzable looks up a triple without a key. -/
def admitAborts (api : Api) (s : Sequence) (fn : Nat) : Bool :=
  let sig := api.catalog.sig fn
  let start := if sig.isUnsafe then s.markUnsafe else s
  let start := match sig.traitPath with
    | some t => start.addTrait t
    | none => start
  sig.kind != .generic && (List.range sig.params.length).any fun k =>
    match (List.range k).foldlM (bindParam api s fn) { seq := start } with
    | some d =>
      (api.paramClass fn k).kind == .notFuzzable && (api.supplierChecked? s d.borrows fn k).isNone
    | none => false

/-- The sequence that admitting the functions one after the other builds from the empty
sequence, if every call is admitted. -/
def replay? (api : Api) (fns : List Nat) : Option Sequence :=
  fns.foldlM (fun s f => api.extend? 0 s f) {}

end Api

end DriverSynth
