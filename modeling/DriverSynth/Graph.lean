import DriverSynth.Catalog
import DriverSynth.Link
import DriverSynth.Doc.Basic
import Std.Data.TreeMap

/-! # The dependency graph

There is an edge from producer `p` to parameter `k` of consumer `c` exactly when `p` has a result
and is no end function, `c` is no start function, both types survive their function's bindings,
and the result links to the parameter. Edges are numbered in the order of `p`, `c`, `k`. One
index lists the edges into each consumer, the other the edges of each triple under a 64-bit key
(`Graph.tripleKey?`), which a triple outside the key's widths lacks. Building and looking up check
those widths (`Graph.buildFits`, `Graph.lookup?`); a failed check ends the process.
-/

namespace DriverSynth

namespace Graph

/-- Function ids must stay below this to fit the key of an edge. -/
def functionIdLimit : Nat := Nat.pow 2 24

/-- Parameter positions must stay below this to fit the key of an edge. -/
def paramLimit : Nat := Nat.pow 2 16

/-- The key of a triple: producer, consumer and parameter packed at bits 40, 16 and 0, when each
fits its width. -/
def tripleKey? (p c k : Nat) : Option UInt64 :=
  if p < functionIdLimit ∧ c < functionIdLimit ∧ k < paramLimit then
    some ((p.toUInt64 <<< 40) ||| (c.toUInt64 <<< 16) ||| k.toUInt64)
  else none

end Graph

/-- One way the result of a call can be passed to a parameter of another. -/
structure Edge where
  producer : Nat
  consumer : Nat
  param : Nat
  link : Link
deriving Repr, DecidableEq, Inhabited

/-- The key of an edge's triple. -/
def Edge.key? (e : Edge) : Option UInt64 := Graph.tripleKey? e.producer e.consumer e.param

/-- The indexes agree with the edges: each id filed under a key is of an edge with that key, and
the consumer index lists it under the edge's consumer. -/
def Graph.Filed (edges : Array Edge) (into : Std.TreeMap Nat (Array Nat))
    (triples : Std.TreeMap UInt64 (Array Nat)) : Prop :=
  ∀ key, ∀ id ∈ (triples.getD key #[]).toList, ∃ e, edges[id]? = some e ∧ e.key? = some key ∧
    id ∈ (into.getD e.consumer #[]).toList

/-- The edges between the functions of a catalog, numbered by position, with the index of the edge
ids into each consumer and the index of the edge ids of each triple, under its key. -/
structure Graph where
  size : Nat
  edges : Array Edge
  into : Std.TreeMap Nat (Array Nat)
  triples : Std.TreeMap UInt64 (Array Nat)
  filed : Graph.Filed edges into triples

namespace Graph

/-- Appending an edge and filing its id under its consumer and, if it has one, under its key
keeps the indexes in agreement with the edges. -/
theorem Filed.push {edges : Array Edge} {into : Std.TreeMap Nat (Array Nat)}
    {triples : Std.TreeMap UInt64 (Array Nat)} (filed : Filed edges into triples) (e : Edge) :
    Filed (edges.push e) (into.insert e.consumer ((into.getD e.consumer #[]).push edges.size))
      (match e.key? with
        | some key => triples.insert key ((triples.getD key #[]).push edges.size)
        | none => triples) := by
  -- an id filed before keeps its edge and its place under the consumer
  have old : ∀ key, ∀ id ∈ (triples.getD key #[]).toList, ∃ e', (edges.push e)[id]? = some e' ∧
      e'.key? = some key ∧ id ∈ ((into.insert e.consumer
        ((into.getD e.consumer #[]).push edges.size)).getD e'.consumer #[]).toList := by
    intro key id member
    obtain ⟨e', found, keyed, listed⟩ := filed key id member
    have bound : id < edges.size := (Array.getElem?_eq_some_iff.mp found).1
    refine ⟨e', by rw [Array.getElem?_push, if_neg (Nat.ne_of_lt bound)]; exact found, keyed, ?_⟩
    rw [Std.TreeMap.getD_insert]
    split <;> simp_all
  intro key id member
  cases keyed : e.key? with
  | none =>
    rw [keyed] at member
    exact old key id member
  | some key' =>
    rw [keyed, Std.TreeMap.getD_insert] at member
    split at member
    · rename_i same
      obtain rfl := Std.LawfulEqCmp.compare_eq_iff_eq.mp same
      rw [Array.toList_push, List.mem_append, List.mem_singleton] at member
      rcases member with member | rfl
      · exact old key' id member
      · -- the new id, of the appended edge
        refine ⟨e, by simp, keyed, ?_⟩
        simp
    · exact old key id member

/-- A graph of `size` functions and no edge. -/
def empty (size : Nat) : Graph :=
  ⟨size, #[], ∅, ∅, fun key id member => by simp at member⟩

instance : Inhabited Graph := ⟨empty 0⟩

/-- Appends an edge under the next id, filed under its consumer and under its key. -/
def addEdge (g : Graph) (e : Edge) : Graph where
  size := g.size
  edges := g.edges.push e
  into := g.into.insert e.consumer ((g.into.getD e.consumer #[]).push g.edges.size)
  triples := match e.key? with
    | some key => g.triples.insert key ((g.triples.getD key #[]).push g.edges.size)
    -- building has failed its bounds checks before such an edge
    | none => g.triples
  filed := g.filed.push e

/-- Whether function `p` produces values for edges: it is no end function, and it has a result
that survives its own bindings. -/
def produces (catalog : Catalog) (p : Nat) : Bool :=
  let producer := catalog.sig p
  !catalog.isEnd p && (producer.output.bind (·.subst producer.bindings)).isSome

/-- The edges from producer `p` into each parameter of consumer `c`, under a rule that says how
a produced type reaches a parameter type. -/
def edgesFromTo (rule : Ty → Ty → Link) (catalog : Catalog) (p : Nat) (produced : Ty) (c : Nat) :
    List Edge :=
  let consumer := catalog.sig c
  (List.range consumer.params.length).zip consumer.params |>.filterMap fun (k, param) =>
    match param.subst consumer.bindings with
    | none => none
    | some consumed =>
      let l := rule produced consumed
      if l.compatible then some ⟨p, c, k, l⟩ else none

/-- The edges out of producer `p`, in the order of consumer and parameter. -/
def edgesFrom (rule : Ty → Ty → Link) (catalog : Catalog) (p : Nat) : List Edge :=
  let producer := catalog.sig p
  if catalog.isEnd p then []
  else
    match producer.output.bind (·.subst producer.bindings) with
    | none => []
    | some produced =>
      (List.range catalog.size).filter (!catalog.isStart ·) |>.flatMap
        (edgesFromTo rule catalog p produced)

/-- The dependency graph of a catalog under a link rule. -/
def buildWith (rule : Ty → Ty → Link) (catalog : Catalog) : Graph :=
  ((List.range catalog.size).flatMap (edgesFrom rule catalog)).foldl addEdge (empty catalog.size)

/-- Whether building the graph passes its bounds checks: at most `functionIdLimit` functions, and
at most `paramLimit` parameters for each function that is no start function, checked only once
some function produces. -/
def buildFits (catalog : Catalog) : Bool :=
  let ids := List.range catalog.size
  catalog.size ≤ functionIdLimit &&
    (!ids.any (produces catalog) ||
      ids.all fun c => catalog.isStart c || (catalog.sig c).params.length ≤ paramLimit)

/-- The dependency graph of a catalog under the link rules of Rust types (`link`). -/
def build (catalog : Catalog) : Graph := buildWith link catalog

/-- The number of edges. -/
def numEdges (g : Graph) : Nat := g.edges.size

/-- The edge of an id. -/
def edge (g : Graph) (id : Nat) : Edge := g.edges.getD id default

/-- The ids of the edges from `p` into parameter `k` of `c`, ascending, or `none` when the
triple has no key and the bounds check of the lookup ends the process. -/
def lookup? (g : Graph) (p c k : Nat) : Option (List Nat) :=
  (tripleKey? p c k).map fun key => (g.triples.getD key #[]).toList

/-- The ids of the edges from `p` into parameter `k` of `c`, ascending. A triple without a key
gives none: the process has ended there (`lookup?`), and `Api.admitAborts` says when a search
gets that far. -/
def between (g : Graph) (p c k : Nat) : List Nat := (g.lookup? p c k).getD []

/-- The first edge from `p` into parameter `k` of `c`. -/
def find? (g : Graph) (p c k : Nat) : Option Nat := (g.between p c k).head?

/-- Inserts into a sorted list without repeats. -/
def insertSorted (n : Nat) : List Nat → List Nat
  | [] => [n]
  | m :: rest => if n < m then n :: m :: rest else if n = m then m :: rest
    else m :: insertSorted n rest

/-- The producers with an edge into `c`, ascending, each once. -/
def producersOf (g : Graph) (c : Nat) : List Nat :=
  (g.into.getD c #[]).foldl (fun acc id => insertSorted (g.edge id).producer acc) []

/-- The graph as a compact document: its edges with their ids, and the number of functions. -/
def serialize (json : JsonCodec) (g : Graph) : String :=
  let edges := (List.range g.edges.size).map fun id =>
    let e := g.edge id
    Doc.record [("id", .nat id), ("producer", .nat e.producer), ("consumer", .nat e.consumer),
      ("param", .nat e.param), ("mode", .str e.link.mode.name), ("unsafe", .bool e.link.needsUnsafe)]
  json.dump none (Doc.record [("num_functions", .nat g.size), ("edges", .arr edges)])

end Graph

end DriverSynth
