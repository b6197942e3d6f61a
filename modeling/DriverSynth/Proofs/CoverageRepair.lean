import DriverSynth.Proofs.FastBreadth
import DriverSynth.Proofs.Pool
import DriverSynth.Proofs.SeedReplay
import Mathlib

/-! # Coverage repair only adds

Coverage repair runs passes over the unvisited functions. A pass fixes its candidates, the pooled
sequences that may prefix a repair, at its start, and pushes a repair for each listed function it
can, admitting the function to a merge of candidates (`Search.repairPass_spec`). The passes repair
distinct functions (`Search.repairPasses_spec`), end on their own (`Search.repairPasses_add`), and
each pushed sequence ends in its function, so the count returned is the number of visits added
(`Search.coverUnvisited_counts`).
-/

namespace DriverSynth

namespace Search

variable {s t : Search}

/-- The functions of the API that are not visited, ascending. -/
def unvisited (s : Search) : List Nat := (List.range s.api.size).filter (!s.visited.getD · false)

theorem coverUnvisited_eq (s : Search) :
    s.coverUnvisited = repairPasses s.unvisited.length s.unvisited 0 s := rfl

/-- One pass of coverage repair over the functions `unvisited`, against the candidates `cands`:
the search with every repair found pushed, and the functions repaired, in order. -/
def repairPass (s : Search) (cands unvisited : List Nat) : Search × List Nat :=
  unvisited.foldl (fun (s, covered) target =>
    match s.repair? cands target with
    | some q => (s.push q, covered ++ [target])
    | none => (s, covered)) (s, [])

/-- A pass that covers nothing ends the passes; another drops what it covered and counts it. -/
theorem repairPasses_succ (fuel : Nat) (unvisited : List Nat) (total : Nat) (s : Search) :
    repairPasses (fuel + 1) unvisited total s =
      if (s.repairPass s.candidates unvisited).2.isEmpty then
        ((s.repairPass s.candidates unvisited).1, total)
      else repairPasses fuel
        (unvisited.filter (!(s.repairPass s.candidates unvisited).2.contains ·))
        (total + (s.repairPass s.candidates unvisited).2.length)
        (s.repairPass s.candidates unvisited).1 := rfl

/-- The candidates of a search are its pooled sequences that are not empty, not ended, and have
no dead call. -/
theorem mem_candidates_iff {i : Nat} :
    i ∈ s.candidates ↔ i < s.pool.size ∧ (s.pool.getD i {}).size ≠ 0 ∧
      s.api.isEnded (s.pool.getD i {}) = false ∧ (s.pool.getD i {}).isDead = false := by
  simp [candidates, and_assoc]

/-- `q` admits `target` to a merge of sequences pooled in `s` that may prefix a repair: not
empty, not ended, with no dead call. -/
def RepairOf (s : Search) (target : Nat) (q : Sequence) : Prop :=
  ∃ prefixes : List Sequence,
    (∀ p ∈ prefixes, ∃ i < s.pool.size, p = s.pool.getD i {} ∧ p.size ≠ 0 ∧
      s.api.isEnded p = false ∧ p.isDead = false) ∧
    s.api.extend? 0 (Sequence.merge 0 prefixes) target = some q

/-- A repair against the candidates of a search is a repair of it. -/
theorem repairOf_of_repair? {target : Nat} {q : Sequence}
    (repaired : s.repair? s.candidates target = some q) : s.RepairOf target q := by
  obtain ⟨prefixes, chosen, admitted⟩ := repair?_eq_some repaired
  refine ⟨prefixes, fun p member => ?_, admitted⟩
  obtain ⟨i, candidate, rfl⟩ := chosen p member
  obtain ⟨bound, nonempty, unended, alive⟩ := mem_candidates_iff.mp candidate
  exact ⟨i, bound, rfl, nonempty, unended, alive⟩

section Congruence

variable {cands : List Nat} (sameApi : t.api = s.api)
  (samePool : ∀ i ∈ cands, t.pool.getD i {} = s.pool.getD i {})
include sameApi samePool

/-- The prefix chosen for a parameter depends only on the candidates' sequences. -/
theorem prefixFor_congr (target k : Nat) : t.prefixFor cands target k = s.prefixFor cands target k := by
  unfold prefixFor
  dsimp only
  have fits : (cands.filter fun i =>
      !(t.api.graph.between (((t.pool.getD i {}).lastFn?).getD 0) target k).isEmpty) =
      cands.filter fun i =>
        !(s.api.graph.between (((s.pool.getD i {}).lastFn?).getD 0) target k).isEmpty :=
    List.filter_congr fun i member => by rw [sameApi, samePool i member]
  rw [fits, List.find?_congr fun i member => by
    rw [samePool i (List.mem_filter.mp member).1]]

/-- A repair depends only on the API and the candidates' sequences. -/
theorem repair?_congr (target : Nat) : t.repair? cands target = s.repair? cands target := by
  unfold repair?
  have pick : ∀ k, (t.prefixFor cands target k).map (fun i => some (t.pool.getD i {})) =
      (s.prefixFor cands target k).map (fun i => some (s.pool.getD i {})) := by
    intro k
    rw [prefixFor_congr sameApi samePool]
    exact Option.map_congr fun i chosen => by rw [samePool i (prefixFor_mem chosen)]
  simp only [sameApi, pick]

end Congruence

/-- Pushing sequences leaves the repairs against the candidates of the search before. -/
theorem repair?_pushAll (qs : List Sequence) (target : Nat) :
    (s.pushAll qs).repair? s.candidates target = s.repair? s.candidates target := by
  refine repair?_congr (api_pushAll qs) (fun i member => ?_) target
  have bound := (mem_candidates member).1
  rw [Array.getD_eq_getD_getElem?, Array.getD_eq_getD_getElem?, ← Array.getElem?_toList,
    ← Array.getElem?_toList, pool_pushAll, List.getElem?_append_left (by simpa using bound)]

/-- One pass pushes, onto the search it starts from, repairs of some of the listed functions, in
the order of the list, each against the candidates of that start. -/
theorem repairPass_spec (s : Search) (unvisited : List Nat) :
    ∃ pairs : List (Nat × Sequence),
      s.repairPass s.candidates unvisited = (s.pushAll (pairs.map (·.2)), pairs.map (·.1)) ∧
      (pairs.map (·.1)).Sublist unvisited ∧ ∀ p ∈ pairs, s.RepairOf p.1 p.2 := by
  unfold repairPass
  refine foldl_prefix_invariant (fun (done : List Nat) (st : Search × List Nat) =>
      ∃ pairs : List (Nat × Sequence), st = (s.pushAll (pairs.map (·.2)), pairs.map (·.1)) ∧
        (pairs.map (·.1)).Sublist done ∧ ∀ p ∈ pairs, s.RepairOf p.1 p.2)
    ⟨[], rfl, List.Sublist.slnil, fun _ member => absurd member List.not_mem_nil⟩ ?_ rfl
  rintro done target - st - ⟨pairs, rfl, sublist, repairs⟩
  dsimp only
  -- the pass so far has only pushed, so the target's repair is the one against the start
  rw [repair?_pushAll]
  cases repaired : s.repair? s.candidates target with
  | none => exact ⟨pairs, rfl, sublist.trans (List.sublist_append_left _ _), repairs⟩
  | some q =>
    refine ⟨pairs ++ [(target, q)], ?_, ?_, ?_⟩
    · simp [pushAll]
    · simpa using sublist.append (List.Sublist.refl [target])
    · intro p member
      rcases List.mem_append.mp member with old | new
      · exact repairs p old
      · rw [List.mem_singleton.mp new]
        exact repairOf_of_repair? repaired

/-- Passes of coverage repair from `s` over the functions `unvisited`, each the list of the
functions it repaired with their repairs: every pass repairs something, no function is repaired
twice, and each repair is of a listed function, against the search at the start of its pass. -/
structure Repairs (s : Search) (unvisited : List Nat) (passes : List (List (Nat × Sequence))) :
    Prop where
  nonempty : ∀ pass ∈ passes, pass ≠ []
  nodup : (passes.flatten.map (·.1)).Nodup
  listed : ∀ p ∈ passes.flatten, p.1 ∈ unvisited
  repaired : ∀ j (h : j < passes.length), ∀ p ∈ passes[j],
    (s.pushAll ((passes.take j).flatten.map (·.2))).RepairOf p.1 p.2

namespace Repairs

variable {unvisited : List Nat} {pairs : List (Nat × Sequence)}
  {passes : List (List (Nat × Sequence))}

theorem nil : s.Repairs unvisited [] :=
  ⟨by simp, by simp, by simp, fun _ h => absurd h (Nat.not_lt_zero _)⟩

/-- A pass that repairs some listed functions, then passes over the functions it left. -/
theorem cons (distinct : unvisited.Nodup) (busy : pairs ≠ [])
    (sublist : (pairs.map (·.1)).Sublist unvisited) (repairs : ∀ p ∈ pairs, s.RepairOf p.1 p.2)
    (later : (s.pushAll (pairs.map (·.2))).Repairs
      (unvisited.filter (!(pairs.map (·.1)).contains ·)) passes) :
    s.Repairs unvisited (pairs :: passes) where
  nonempty pass member := by
    rcases List.mem_cons.mp member with rfl | rest
    · exact busy
    · exact later.nonempty pass rest
  nodup := by
    rw [List.flatten_cons, List.map_append]
    refine List.nodup_append.mpr
      ⟨distinct.sublist sublist, later.nodup, fun a first b again same => ?_⟩
    -- a function repaired later was still listed, so this pass did not repair it
    obtain ⟨p, member, rfl⟩ := List.mem_map.mp again
    have still := (List.mem_filter.mp (later.listed p member)).2
    rw [← same] at still
    simp [first] at still
  listed p member := by
    rcases List.mem_append.mp (List.flatten_cons ▸ member) with first | rest
    · exact sublist.subset (List.mem_map_of_mem first)
    · exact (List.mem_filter.mp (later.listed p rest)).1
  repaired j h p member := by
    cases j with
    | zero => simpa [pushAll] using repairs p member
    | succ j =>
      have inner := later.repaired j (by simpa using h) p (by simpa using member)
      simpa [pushAll_append] using inner

/-- Every repair ends in the function it repairs, as admission appends that function last. -/
theorem lastFn?_eq (repairs : s.Repairs unvisited passes) :
    ∀ p ∈ passes.flatten, p.2.lastFn? = some p.1 := by
  intro p member
  obtain ⟨pass, inPasses, inPass⟩ := List.mem_flatten.mp member
  obtain ⟨j, h, rfl⟩ := List.getElem_of_mem inPasses
  obtain ⟨prefixes, -, admitted⟩ := repairs.repaired j h p inPass
  exact lastFn?_of_extend? admitted

end Repairs

/-- Repair passes push, pass after pass, the repairs of their passes, and count them. -/
theorem repairPasses_spec :
    ∀ fuel (unvisited : List Nat) (total : Nat) (s : Search), unvisited.Nodup →
      ∃ passes : List (List (Nat × Sequence)),
        repairPasses fuel unvisited total s =
          (s.pushAll (passes.flatten.map (·.2)), total + passes.flatten.length) ∧
        passes.length ≤ fuel ∧ s.Repairs unvisited passes
  | 0, _, total, s, _ => ⟨[], by simp [repairPasses, pushAll], by simp, Repairs.nil⟩
  | fuel + 1, unvisited, total, s, distinct => by
    obtain ⟨pairs, pass, sublist, repairs⟩ := repairPass_spec s unvisited
    rw [repairPasses_succ, pass]
    dsimp only
    by_cases idle : (pairs.map (·.1)).isEmpty = true
    · -- a pass that covers nothing ends the passes, and has pushed nothing
      have none : pairs = [] := by simpa using idle
      subst none
      exact ⟨[], by simp [pushAll], by simp, Repairs.nil⟩
    rw [if_neg idle]
    obtain ⟨passes, run, bound, later⟩ :=
      repairPasses_spec fuel _ (total + (pairs.map (·.1)).length) _ (distinct.filter _)
    refine ⟨pairs :: passes, ?_, by simp; omega,
      Repairs.cons distinct (by simpa using idle) sublist repairs later⟩
    rw [run, List.flatten_cons, List.map_append, pushAll_append, List.length_append,
      List.length_map, Nat.add_assoc]

/-- Each pass that goes on covers and drops a listed function, so passes end on their own once
their bound is at least the functions listed: more passes change nothing. -/
theorem repairPasses_add :
    ∀ fuel (unvisited : List Nat) (total : Nat) (s : Search), unvisited.length ≤ fuel →
      ∀ extra, repairPasses (fuel + extra) unvisited total s = repairPasses fuel unvisited total s
  | 0, unvisited, total, s, short, extra => by
    -- nothing is listed: the first pass covers nothing
    rw [List.length_eq_zero_iff.mp (Nat.le_zero.mp short)]
    cases extra with
    | zero => rfl
    | succ extra =>
      rw [Nat.zero_add, repairPasses_succ]
      simp [repairPass, repairPasses]
  | fuel + 1, unvisited, total, s, short, extra => by
    rw [Nat.add_right_comm, repairPasses_succ, repairPasses_succ]
    split
    · rfl
    · rename_i busy
      obtain ⟨pairs, pass, sublist, -⟩ := repairPass_spec s unvisited
      rw [pass] at busy ⊢
      dsimp only at busy ⊢
      -- a covered function is listed, and the pass drops it
      obtain ⟨p, member⟩ := List.exists_mem_of_ne_nil pairs (by simpa using busy)
      have covered : p.1 ∈ pairs.map (·.1) := List.mem_map_of_mem member
      have shorter : (unvisited.filter (!(pairs.map (·.1)).contains ·)).length <
          unvisited.length :=
        List.length_filter_lt_length_iff_exists.mpr ⟨p.1, sublist.subset covered, by
          simp only [Bool.not_eq_true, Bool.not_eq_false', List.contains_iff_mem]
          exact covered⟩
      exact repairPasses_add fuel _ _ _ (by omega) extra

/-- Pushing sequences marks the last function of each, where the marks reach. -/
theorem visited_pushAll (qs : List Sequence) (f : Nat) :
    (s.pushAll qs).visited.getD f false = true ↔
      s.visited.getD f false = true ∨ (f < s.visited.size ∧ ∃ q ∈ qs, q.lastFn? = some f) := by
  induction qs generalizing s with
  | nil => simp [pushAll]
  | cons q rest ih =>
    show ((s.push q).pushAll rest).visited.getD f false = true ↔ _
    have sized : (s.push q).visited.size = s.visited.size := by
      unfold push
      split <;> simp
    rw [ih, sized]
    unfold push
    cases last : q.lastFn? with
    | none => simp [last]
    | some g =>
      simp only [getD_setIfInBounds]
      by_cases same : g = f
      · subst same
        by_cases bound : g < s.visited.size <;> simp [bound, last]
      · simp [same, last]

theorem mem_unvisited {f : Nat} :
    f ∈ s.unvisited ↔ f < s.api.size ∧ s.visited.getD f false = false := by
  simp [unvisited]

section NewlyVisited

variable {pairs : List (Nat × Sequence)} (sized : s.visited.size = s.api.size)
  (fresh : ∀ p ∈ pairs, p.1 ∈ s.unvisited) (ends : ∀ p ∈ pairs, p.2.lastFn? = some p.1)
include sized fresh ends

/-- Pushing sequences that end in unvisited functions turns on exactly the marks of those
functions. -/
theorem newlyVisited_pushAll_iff (f : Nat) :
    (!s.visited.getD f false && (s.pushAll (pairs.map (·.2))).visited.getD f false) = true ↔
      f ∈ pairs.map (·.1) := by
  simp only [Bool.and_eq_true, Bool.not_eq_true', visited_pushAll]
  constructor
  · rintro ⟨unmarked, marked | ⟨-, q, pushed, last⟩⟩
    · rw [unmarked] at marked
      cases marked
    · obtain ⟨p, member, rfl⟩ := List.mem_map.mp pushed
      rw [ends p member] at last
      cases last
      exact List.mem_map_of_mem member
  · intro pushed
    obtain ⟨p, member, rfl⟩ := List.mem_map.mp pushed
    obtain ⟨bound, unmarked⟩ := mem_unvisited.mp (fresh p member)
    exact ⟨unmarked, .inr ⟨sized ▸ bound, p.2, List.mem_map_of_mem member, ends p member⟩⟩

/-- Pushing sequences that end in distinct unvisited functions adds one visit for each. -/
theorem length_newlyVisited_pushAll (unique : (pairs.map (·.1)).Nodup) :
    ((List.range s.api.size).filter fun f =>
      !s.visited.getD f false && (s.pushAll (pairs.map (·.2))).visited.getD f false).length =
      pairs.length := by
  -- both lists are duplicate-free with the same members
  have same := (List.perm_ext_iff_of_nodup (List.nodup_range.filter _) unique).mpr fun f => by
    rw [List.mem_filter, newlyVisited_pushAll_iff sized fresh ends]
    constructor
    · exact fun both => both.2
    · intro pushed
      obtain ⟨p, member, rfl⟩ := List.mem_map.mp pushed
      exact ⟨List.mem_range.mpr (mem_unvisited.mp (fresh p member)).1, pushed⟩
  rw [same.length_eq, List.length_map]

end NewlyVisited

/-- Coverage repair only pushes: at most one pass with repairs per unvisited function, sequences
that end in distinct functions unvisited at the start, each its function admitted to a merge of
pooled prefixes; it returns how many functions it newly visits. -/
theorem coverUnvisited_counts (sized : s.visited.size = s.api.size) :
    ∃ passes : List (List (Nat × Sequence)),
      s.coverUnvisited.1 = s.pushAll (passes.flatten.map (·.2)) ∧
      s.coverUnvisited.1.pool.toList = s.pool.toList ++ passes.flatten.map (·.2) ∧
      passes.length ≤ s.unvisited.length ∧ (∀ pass ∈ passes, pass ≠ []) ∧
      (∀ extra, repairPasses (s.unvisited.length + extra) s.unvisited 0 s = s.coverUnvisited) ∧
      (passes.flatten.map (·.1)).Nodup ∧
      (∀ p ∈ passes.flatten, p.1 ∈ s.unvisited ∧ p.2.lastFn? = some p.1) ∧
      (∀ j (h : j < passes.length), ∀ p ∈ passes[j],
        (s.pushAll ((passes.take j).flatten.map (·.2))).RepairOf p.1 p.2) ∧
      s.coverUnvisited.2 = passes.flatten.length ∧
      s.coverUnvisited.2 = ((List.range s.api.size).filter fun f =>
        !s.visited.getD f false && s.coverUnvisited.1.visited.getD f false).length := by
  obtain ⟨passes, run, bound, repairs⟩ :=
    repairPasses_spec s.unvisited.length s.unvisited 0 s (List.nodup_range.filter _)
  rw [Nat.zero_add] at run
  have counted := length_newlyVisited_pushAll sized repairs.listed repairs.lastFn?_eq repairs.nodup
  refine ⟨passes, by rw [coverUnvisited_eq, run], by rw [coverUnvisited_eq, run, pool_pushAll],
    bound, repairs.nonempty, fun extra => repairPasses_add _ _ _ _ (Nat.le_refl _) extra,
    repairs.nodup, fun p member => ⟨repairs.listed p member, repairs.lastFn?_eq p member⟩,
    repairs.repaired, by rw [coverUnvisited_eq, run], ?_⟩
  rw [coverUnvisited_eq, run]
  exact counted.symm

end Search

/-- Coverage repair from the start of a search over `sessionCatalog`, where nothing is visited:
the count it returns is the number of visits it adds. -/
theorem sessionSearch_coverUnvisited_counts :
    sessionSearch.visited.size = sessionSearch.api.size ∧
      sessionSearch.coverUnvisited.1.pool.toList.map Sequence.fns = [[0], [0, 1], [0, 0, 1, 2]] ∧
      sessionSearch.coverUnvisited.2 = ((List.range sessionSearch.api.size).filter fun f =>
        !sessionSearch.visited.getD f false &&
          sessionSearch.coverUnvisited.1.visited.getD f false).length := by
  have sized : sessionSearch.visited.size = sessionSearch.api.size := by decide +kernel
  obtain ⟨-, -, -, -, -, -, -, -, -, -, counts⟩ := Search.coverUnvisited_counts sized
  exact ⟨sized, by decide +kernel, counts⟩

end DriverSynth
