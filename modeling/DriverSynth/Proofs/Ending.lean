import DriverSynth.Proofs.Replay

/-! # End functions come last

In every pooled sequence, no call but the last is of an end function (`Sequence.EndsLast`). The
searches that stop at end functions extend only unended sequences, and an unended sequence calls
no end function (`Api.endsLast_unended`); coverage repair merges only unended candidates; and the
graph has no edge out of an end function, from which reverse construction takes its parts. The
length bounds come from the same pool lemmas. Main statement: `Search.endsLast_within_bounds`.
-/

namespace DriverSynth

namespace Sequence

/-- The functions of the calls, in order. -/
def fns (q : Sequence) : List Nat := q.calls.toList.map (·.fn)

/-- No call but the last is of an end function. -/
def EndsLast (catalog : Catalog) (q : Sequence) : Prop :=
  ∀ f ∈ q.fns.dropLast, catalog.isEnd f = false

/-- No call is of an end function. -/
def Unended (catalog : Catalog) (q : Sequence) : Prop :=
  ∀ f ∈ q.fns, catalog.isEnd f = false

instance (catalog : Catalog) (q : Sequence) : Decidable (q.EndsLast catalog) :=
  inferInstanceAs (Decidable (∀ f ∈ q.fns.dropLast, catalog.isEnd f = false))

variable {catalog : Catalog}

@[simp] theorem fns_empty : ({} : Sequence).fns = [] := rfl

@[simp] theorem fns_append (s : Sequence) (c : Call) : (s.append c).fns = s.fns ++ [c.fn] := by
  simp [fns]

theorem fns_appendPart (stamp : Nat) (s part : Sequence) :
    (s.appendPart stamp part).fns = s.fns ++ part.fns := by
  simp [fns, appendPart_calls, Function.comp_def]

theorem fns_foldl_appendPart (stamp : Nat) (parts : List Sequence) (s : Sequence) :
    (parts.foldl (appendPart stamp) s).fns = s.fns ++ parts.flatMap fns := by
  induction parts generalizing s with
  | nil => simp
  | cons part rest ih => simp [ih, fns_appendPart]

/-- The functions of a merge are those of its parts, in order. -/
theorem fns_merge (stamp : Nat) (parts : List Sequence) :
    (merge stamp parts).fns = parts.flatMap fns := by
  cases parts with
  | nil => rfl
  | cons first rest => simp [merge, fns_foldl_appendPart]

theorem lastFn?_eq_getLast? (q : Sequence) : q.lastFn? = q.fns.getLast? := by
  simp [lastFn?, fns]

theorem endsLast_empty : ({} : Sequence).EndsLast catalog := by
  simp [EndsLast]

theorem Unended.endsLast {q : Sequence} (unended : q.Unended catalog) : q.EndsLast catalog :=
  fun f member => unended f ((List.dropLast_sublist _).subset member)

/-- One more call after calls of no end function leaves the last call the only one that may end. -/
theorem Unended.endsLast_append {q q' : Sequence} (unended : q.Unended catalog) {c : Call}
    (calls : q'.calls = q.calls.push c) : q'.EndsLast catalog := by
  have fns : q'.fns = q.fns ++ [c.fn] := by simp [fns, calls]
  intro f member
  rw [fns, List.dropLast_concat] at member
  exact unended f member

/-- A merge of sequences that call no end function calls none. -/
theorem unended_merge (stamp : Nat) {parts : List Sequence}
    (all : ∀ q ∈ parts, q.Unended catalog) : (merge stamp parts).Unended catalog := by
  intro f member
  rw [fns_merge, List.mem_flatMap] at member
  obtain ⟨q, part, called⟩ := member
  exact all q part f called

end Sequence

namespace Api

variable {api : Api}

/-- A sequence that calls an end function only last, and is not ended, calls none. -/
theorem endsLast_unended {q : Sequence} (ends : q.EndsLast api.catalog)
    (notEnded : api.isEnded q = false) : q.Unended api.catalog := by
  intro f member
  unfold isEnded at notEnded
  rw [Sequence.lastFn?_eq_getLast?] at notEnded
  cases last : q.fns.getLast? with
  | none =>
    rw [List.getLast?_eq_none_iff] at last
    rw [last] at member
    cases member
  | some l =>
    rw [last] at notEnded
    obtain ⟨before, split⟩ := List.getLast?_eq_some_iff.mp last
    rw [split, List.mem_append, List.mem_singleton] at member
    rcases member with early | rfl
    · exact ends f (by rw [split, List.dropLast_concat]; exact early)
    · exact notEnded

/-- Admitting a call to a sequence of no end function calls an end function only last. -/
theorem extend?_endsLast {q e : Sequence} {stamp f : Nat} (unended : q.Unended api.catalog)
    (extended : api.extend? stamp q f = some e) : e.EndsLast api.catalog := by
  obtain ⟨args, produces, calls⟩ := extend?_calls extended
  exact unended.endsLast_append calls

/-- Admitting a call adds one call. -/
theorem extend?_size {q e : Sequence} {stamp f : Nat} (extended : api.extend? stamp q f = some e) :
    e.size = q.size + 1 := by
  obtain ⟨args, produces, calls⟩ := extend?_calls extended
  simp [Sequence.size, calls]

/-- No edge of the graph leaves an end function. -/
theorem isEnd_of_mem_between (built : api.graph = Graph.build api.catalog) {p c k id : Nat}
    (member : id ∈ api.graph.between p c k) : api.catalog.isEnd p = false := by
  obtain ⟨bound, edgeEq, -⟩ := edge_of_mem_between built member
  rw [built] at bound edgeEq
  have listed : (Graph.build api.catalog).edge id ∈ (Graph.build api.catalog).edges.toList :=
    Graph.edge_mem bound
  rw [edgeEq] at listed
  exact (Graph.linkFor_eq_some_iff.mp (Graph.mem_edges.mp listed)).2.2.1

/-- Reverse construction builds, for a target, a sequence that ends in it and calls an end
function only last: each part ends in a producer with an edge into the target, which is no end
function. -/
theorem endsLast_assembleKeeps (built : api.graph = Graph.build api.catalog) (known : Array Bool) :
    api.AssembleKeeps known fun f q => q.EndsLast api.catalog ∧ q.lastFn? = some f := by
  intro target parts resolved _ gathered _
  have partsUnended : ∀ q ∈ parts, q.Unended api.catalog := by
    intro q member
    obtain ⟨r, -, p, -, -, between, ends, last⟩ := gathered.mem_parts member
    refine endsLast_unended ends ?_
    rw [isEnded, last]
    exact isEnd_of_mem_between built between
  obtain ⟨merged, calls⟩ := assemble_calls target parts resolved
  refine ⟨(Sequence.unended_merge 0 partsUnended).endsLast_append calls, ?_⟩
  simp [Sequence.lastFn?, calls]

end Api

namespace Search

variable {catalog : Catalog} {s : Search}

section

variable (keeps : s.Keeps (Api.ofCatalog catalog) (·.EndsLast catalog))
include keeps

/-- Breadth-first search that stops at end functions keeps end functions last. -/
theorem Keeps.bfs_endsLast (maxLen : Nat) (fast : Bool) :
    (s.bfs maxLen true fast).Keeps (Api.ofCatalog catalog) (·.EndsLast catalog) :=
  (bfs_grows (Grows.self keeps.api_eq) Sequence.endsLast_empty
    fun q pooled _ going _ _ extended =>
      Api.extend?_endsLast (Api.endsLast_unended (pooled.elim (keeps.pooled q) id) (going rfl))
        extended).keeps keeps.pooled fun _ holds => holds

/-- Coverage repair keeps end functions last. -/
theorem Keeps.coverUnvisited_endsLast :
    s.coverUnvisited.1.Keeps (Api.ofCatalog catalog) (·.EndsLast catalog) := by
  refine (coverUnvisited_grows (Grows.self keeps.api_eq) fun prefixes pooled _ _ extended =>
    Api.extend?_endsLast (Sequence.unended_merge 0 fun p member => ?_) extended).keeps
      keeps.pooled fun _ holds => holds
  obtain ⟨pooledOrHolds, notEnded⟩ := pooled p member
  exact Api.endsLast_unended (pooledOrHolds.elim (keeps.pooled p) id) notEnded

end

variable (api_eq : s.api = Api.ofCatalog catalog)
include api_eq

/-- Deep breadth-first search pools sequences that call an end function only last. -/
theorem tryDeepBfs_endsLast (ceiling : Nat) :
    (s.tryDeepBfs ceiling).Keeps (Api.ofCatalog catalog) (·.EndsLast catalog) :=
  tryDeepBfs_keeps api_eq Sequence.endsLast_empty (fun _ ends _ notEnded _ _ extended =>
    Api.extend?_endsLast (Api.endsLast_unended ends notEnded) extended) ceiling

/-- A random walk that stops at end functions pools sequences that call an end function only
last. -/
theorem randomWalk_endsLast (steps maxDepth : Nat) :
    (s.randomWalk steps true maxDepth).Keeps (Api.ofCatalog catalog) (·.EndsLast catalog) :=
  randomWalk_keeps api_eq Sequence.endsLast_empty (fun _ ends going _ _ _ extended =>
    Api.extend?_endsLast (Api.endsLast_unended ends (going rfl)) extended) steps

/-- Backward search pools sequences that call an end function only last. -/
theorem backward_endsLast :
    s.backward.Keeps (Api.ofCatalog catalog) (·.EndsLast catalog) :=
  backward_keeps api_eq fun _ prefixes _ _ extended =>
    Api.extend?_endsLast (Sequence.unended_merge 0 fun p member =>
      Api.endsLast_unended (prefixes p member).1 (prefixes p member).2) extended

/-- Reverse construction pools sequences that call an end function only last. -/
theorem reverseAll_endsLast :
    s.reverseAll.Keeps (Api.ofCatalog catalog) (·.EndsLast catalog) :=
  reverseAll_keeps api_eq
    (Api.reverseWith_keeps (@Api.endsLast_assembleKeeps (Api.ofCatalog catalog) rfl _))
    fun _ _ holds => holds.1

/-- Breadth-first search keeps the pool and adds sequences of at most `maxLen` calls. -/
theorem bfs_sizes_le (maxLen : Nat) (stopAtEnd fast : Bool) :
    ∃ more, (s.bfs maxLen stopAtEnd fast).pool.toList = s.pool.toList ++ more ∧
      ∀ q ∈ more, q.size ≤ maxLen :=
  (bfs_grows (P := (·.size ≤ maxLen)) (Grows.self api_eq) (Nat.zero_le _)
    fun _ _ short _ _ _ extended => by rw [Api.extend?_size extended]; exact short).pool_eq

/-- Deep breadth-first search leaves sequences of at most as many calls as there are
functions. -/
theorem tryDeepBfs_sizes_le (ceiling : Nat) :
    ∀ q ∈ (s.tryDeepBfs ceiling).pool.toList, q.size ≤ catalog.size :=
  (tryDeepBfs_keeps (P := (·.size ≤ catalog.size)) api_eq (Nat.zero_le _)
    (fun _ _ short _ _ _ extended => by rw [Api.extend?_size extended]; exact short)
    ceiling).pooled

/-- A random walk with a positive depth leaves sequences of at most that many calls. -/
theorem randomWalk_sizes_le (steps : Nat) (stopAtEnd : Bool) {maxDepth : Nat}
    (positive : 0 < maxDepth) :
    ∀ q ∈ (s.randomWalk steps stopAtEnd maxDepth).pool.toList, q.size ≤ maxDepth :=
  (randomWalk_keeps (P := (·.size ≤ maxDepth)) api_eq (Nat.zero_le _)
    (fun _ _ _ short _ _ extended => by rw [Api.extend?_size extended]; exact short positive)
    steps).pooled

omit api_eq in
/-- Every strategy keeps end functions last in the pooled sequences of a search that stops at them,
and keeps to its lengths: `maxLen` calls for breadth-first search, one call per function for the
deep one, and the depth for a random walk. -/
theorem endsLast_within_bounds (keeps : s.Keeps (Api.ofCatalog catalog) (·.EndsLast catalog))
    (maxLen steps ceiling depth : Nat) (stopAtEnd fast : Bool) :
    (s.bfs maxLen true fast).Keeps (Api.ofCatalog catalog) (·.EndsLast catalog) ∧
      (s.randomWalk steps true depth).Keeps (Api.ofCatalog catalog) (·.EndsLast catalog) ∧
      (s.tryDeepBfs ceiling).Keeps (Api.ofCatalog catalog) (·.EndsLast catalog) ∧
      s.coverUnvisited.1.Keeps (Api.ofCatalog catalog) (·.EndsLast catalog) ∧
      s.backward.Keeps (Api.ofCatalog catalog) (·.EndsLast catalog) ∧
      s.reverseAll.Keeps (Api.ofCatalog catalog) (·.EndsLast catalog) ∧
      s.generateDefault.Keeps (Api.ofCatalog catalog) (·.EndsLast catalog) ∧
      (∃ more, (s.bfs maxLen stopAtEnd fast).pool.toList = s.pool.toList ++ more ∧
        ∀ q ∈ more, q.size ≤ maxLen) ∧
      (∀ q ∈ (s.tryDeepBfs ceiling).pool.toList, q.size ≤ catalog.size) ∧
      (0 < depth → ∀ q ∈ (s.randomWalk steps stopAtEnd depth).pool.toList, q.size ≤ depth) := by
  have api_eq := keeps.api_eq
  -- the default generation is breadth-first search to end functions, then coverage repair
  have generated : s.generateDefault.Keeps (Api.ofCatalog catalog) (·.EndsLast catalog) := by
    unfold generateDefault generate
    exact (keeps.bfs_endsLast _ false).coverUnvisited_endsLast
  exact ⟨keeps.bfs_endsLast maxLen fast, randomWalk_endsLast api_eq steps depth,
    tryDeepBfs_endsLast api_eq ceiling, keeps.coverUnvisited_endsLast, backward_endsLast api_eq,
    reverseAll_endsLast api_eq, generated, bfs_sizes_le api_eq maxLen stopAtEnd fast,
    tryDeepBfs_sizes_le api_eq ceiling, randomWalk_sizes_le api_eq steps stopAtEnd⟩

end Search

/-- Two functions: `open` makes a handle, and `close`, an end function, takes one. -/
def closingCatalog : Catalog where
  entries := #[
    ⟨{ name := "open", output := some (.path "H" [] false) }, false, false⟩,
    ⟨{ name := "close", params := [.path "H" [] false] }, false, true⟩]

/-- A fresh search over `closingCatalog`. -/
def closingSearch : Search := Search.new (Api.ofCatalog closingCatalog) {}

example : ((closingSearch.bfs 3 true false).pool.toList.map Sequence.fns) =
    [[], [0], [0, 0], [0, 1], [0, 0, 0], [0, 0, 1]] := by
  decide +kernel

theorem closingSearch_endsLast_within_bounds :
    closingSearch.Keeps (Api.ofCatalog closingCatalog) (·.EndsLast closingCatalog) ∧
      (closingSearch.bfs 3 true false).Keeps (Api.ofCatalog closingCatalog)
        (·.EndsLast closingCatalog) ∧
      (closingSearch.randomWalk 10 true 2).Keeps (Api.ofCatalog closingCatalog)
        (·.EndsLast closingCatalog) ∧
      (closingSearch.tryDeepBfs 100).Keeps (Api.ofCatalog closingCatalog)
        (·.EndsLast closingCatalog) ∧
      closingSearch.coverUnvisited.1.Keeps (Api.ofCatalog closingCatalog)
        (·.EndsLast closingCatalog) ∧
      closingSearch.backward.Keeps (Api.ofCatalog closingCatalog) (·.EndsLast closingCatalog) ∧
      closingSearch.reverseAll.Keeps (Api.ofCatalog closingCatalog) (·.EndsLast closingCatalog) ∧
      closingSearch.generateDefault.Keeps (Api.ofCatalog closingCatalog)
        (·.EndsLast closingCatalog) ∧
      (∃ more, (closingSearch.bfs 3 false false).pool.toList = closingSearch.pool.toList ++ more ∧
        ∀ q ∈ more, q.size ≤ 3) ∧
      (∀ q ∈ (closingSearch.tryDeepBfs 100).pool.toList, q.size ≤ closingCatalog.size) ∧
      (0 < 2 → ∀ q ∈ (closingSearch.randomWalk 10 false 2).pool.toList, q.size ≤ 2) :=
  have fresh : closingSearch.Keeps (Api.ofCatalog closingCatalog) (·.EndsLast closingCatalog) :=
    ⟨rfl, by simp [closingSearch, Search.new]⟩
  ⟨fresh, Search.endsLast_within_bounds fresh 3 10 100 2 false false⟩

end DriverSynth
