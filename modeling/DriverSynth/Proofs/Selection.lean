import DriverSynth.Select
import DriverSynth.Proofs.Constructible
import DriverSynth.Proofs.MergeAlgebra
import DriverSynth.Proofs.Replay

/-! # Greedy selection of drivers

The heuristic selection takes valid drivers greedily in two tiers: first those with a
variable-length slot while one adds a function, then the others while one adds a function or an
edge, each round taking the open candidate that ranks highest (`RanksAbove`). A round's fold keeps
the highest-ranked candidate so far (`Greedy.best_spec`), the state records the picks
(`Greedy.Records`), every round keeps `Greedy.Sound`, and the rounds end within their fuel
(`Api.greedyRounds_add`). Main statement: `Api.heuristic_greedy`.
-/

namespace DriverSynth

/-- The functions that sequence `i` of a pool calls and no sequence of `before` calls. -/
def freshFns (pool : Array Sequence) (before : List Nat) (i : Nat) : Nat :=
  (pool.getD i {}).covered.countP fun f => before.all fun j => !(pool.getD j {}).covered.contains f

/-- The edges that sequence `i` of a pool covers and no sequence of `before` covers. -/
def freshEdges (pool : Array Sequence) (before : List Nat) (i : Nat) : Nat :=
  (pool.getD i {}).edges.countP fun e => before.all fun j => !(pool.getD j {}).edges.contains e

/-- The order of the greedy selection on keys (new functions, new edges, calls, index): `a` ranks
at least as high as `b` when it adds more functions, then more edges, then has fewer calls, then
a lower or equal index. -/
def RanksAbove (a b : Nat × Nat × Nat × Nat) : Prop :=
  b.1 < a.1 ∨ b.1 = a.1 ∧ (b.2.1 < a.2.1 ∨ b.2.1 = a.2.1 ∧
    (a.2.2.1 < b.2.2.1 ∨ a.2.2.1 = b.2.2.1 ∧ a.2.2.2 ≤ b.2.2.2))

theorem RanksAbove.refl (a : Nat × Nat × Nat × Nat) : RanksAbove a a := by
  unfold RanksAbove
  omega

theorem RanksAbove.trans {a b c : Nat × Nat × Nat × Nat} (ab : RanksAbove a b)
    (bc : RanksAbove b c) : RanksAbove a c := by
  unfold RanksAbove at *
  omega

/-- The key of sequence `i` of a pool after the picks `before`. -/
def poolKey (pool : Array Sequence) (before : List Nat) (i : Nat) : Nat × Nat × Nat × Nat :=
  (freshFns pool before i, freshEdges pool before i, (pool.getD i {}).size, i)

/-- Sequence `p` of a pool is a greedy pick after the picks `before`: with a variable-length slot
it adds a function, and in any case a function or an edge; and it ranks highest among the valid
drivers not picked before with a variable-length slot alike. -/
def GreedyPick (pool : Array Sequence) (before : List Nat) (p : Nat) : Prop :=
  ((pool.getD p {}).varCount ≠ 0 → 0 < freshFns pool before p) ∧
    (0 < freshFns pool before p ∨ 0 < freshEdges pool before p) ∧
    ∀ i < pool.size, (pool.getD i {}).isValidDriver = true → i ∉ before →
      ((pool.getD i {}).varCount = 0 ↔ (pool.getD p {}).varCount = 0) →
      RanksAbove (poolKey pool before p) (poolKey pool before i)

-- Taking one more item of a list out of a count drops the count.
theorem countP_lt_countP {α : Type} {p q : α → Bool} {l : List α}
    (mono : ∀ x ∈ l, q x = true → p x = true) {y : α} (member : y ∈ l) (counted : p y = true)
    (dropped : q y = false) : l.countP q < l.countP p := by
  induction l with
  | nil => cases member
  | cons x rest ih =>
    have restMono : ∀ x ∈ rest, q x = true → p x = true :=
      fun z inRest => mono z (List.mem_cons_of_mem _ inRest)
    rw [List.countP_cons, List.countP_cons]
    rcases List.mem_cons.mp member with rfl | inRest
    · have le := List.countP_mono_left (l := rest) restMono
      simp [counted, dropped]
      omega
    · have lt := ih restMono inRest
      by_cases hq : q x = true
      · simp [hq, mono x List.mem_cons_self hq]
        omega
      · simp only [Bool.not_eq_true] at hq
        simp only [hq, Bool.false_eq_true, ↓reduceIte]
        split <;> omega

theorem mem_markAll {marked items : List Nat} {x : Nat} :
    x ∈ markAll marked items ↔ x ∈ marked ∨ x ∈ items :=
  mem_foldl_insertOrdered items marked

theorem markAll_sorted {marked : List Nat} (sorted : marked.Pairwise (· < ·)) (items : List Nat) :
    (markAll marked items).Pairwise (· < ·) :=
  pairwise_foldl_insertOrdered items sorted

/-- A set that holds what the picks cover holds, once one more pick's items are marked, what the
picks and that one cover. -/
theorem mem_markAll_pick {pool : Array Sequence} {view : Sequence → List Nat}
    {picks marked : List Nat} (recorded : ∀ x, x ∈ marked ↔ ∃ j ∈ picks, x ∈ view (pool.getD j {}))
    (i x : Nat) :
    x ∈ markAll marked (view (pool.getD i {})) ↔ ∃ j ∈ picks ++ [i], x ∈ view (pool.getD j {}) := by
  rw [mem_markAll, recorded]
  simp only [List.mem_append, List.mem_singleton]
  constructor
  · rintro (⟨j, old, member⟩ | member)
    · exact ⟨j, .inl old, member⟩
    · exact ⟨i, .inr rfl, member⟩
  · rintro ⟨j, (old | rfl), member⟩
    · exact .inl ⟨j, old, member⟩
    · exact .inr member

/-- The candidates of a pool are its valid drivers, each with its index, calls, kind of slots,
functions and edges. -/
theorem mem_driverCandidates {pool : Array Sequence} {c : Candidate} :
    c ∈ driverCandidates pool ↔ c.index < pool.size ∧
      (pool.getD c.index {}).isValidDriver = true ∧ c.size = (pool.getD c.index {}).size ∧
      c.varying = ((pool.getD c.index {}).varCount != 0) ∧
      c.fns = (pool.getD c.index {}).covered ∧ c.edges = (pool.getD c.index {}).edges := by
  unfold driverCandidates
  rw [List.mem_filterMap]
  constructor
  · rintro ⟨i, range, made⟩
    dsimp only at made
    split at made
    · cases made
      exact ⟨List.mem_range.mp range, by assumption, rfl, rfl, rfl, rfl⟩
    · cases made
  · rintro ⟨bound, valid, size, varying, fns, edges⟩
    refine ⟨c.index, List.mem_range.mpr bound, ?_⟩
    dsimp only
    rw [if_pos valid]
    cases c
    dsimp only at size varying fns edges ⊢
    rw [size, varying, fns, edges]

/-- The candidates of a pool come in increasing index order. -/
theorem driverCandidates_sorted (pool : Array Sequence) :
    (driverCandidates pool).Pairwise (·.index < ·.index) := by
  unfold driverCandidates
  refine List.Pairwise.filterMap _ ?_ List.pairwise_lt_range
  intro i j before c made c' made'
  dsimp only at made made'
  split at made <;> split at made' <;> cases made <;> cases made'
  exact before

/-- Every valid driver of a pool is a candidate. -/
theorem candidate_mem {pool : Array Sequence} {i : Nat} (bound : i < pool.size)
    (valid : (pool.getD i {}).isValidDriver = true) :
    (⟨i, (pool.getD i {}).size, (pool.getD i {}).varCount != 0, (pool.getD i {}).covered,
      (pool.getD i {}).edges⟩ : Candidate) ∈ driverCandidates pool :=
  mem_driverCandidates.mpr ⟨bound, valid, rfl, rfl, rfl, rfl⟩

namespace Greedy

/-- A candidate in play in a round: not chosen yet, and of the current tier. -/
def Open (g : Greedy) (q : Candidate) : Prop :=
  g.chosen.getD q.index false = false ∧ q.varying = g.variableTier

/-- The key of a candidate in a round: the functions and edges it adds, its calls, its index. -/
def key (g : Greedy) (q : Candidate) : Nat × Nat × Nat × Nat :=
  (countFresh g.fns q.fns, countFresh g.edges q.edges, q.size, q.index)

/-- What the fold of a round holds after the candidates `done`: no pick, when no open candidate
among them adds a function or an edge; or the open candidate among them that ranks highest, with
its counts, adding a function or an edge. -/
def BestOf (g : Greedy) (done : List Candidate) : Option Candidate × Nat × Nat → Prop
  | (none, bf, be) => bf = 0 ∧ be = 0 ∧ ∀ q ∈ done, g.Open q → (g.key q).1 = 0 ∧ (g.key q).2.1 = 0
  | (some b, bf, be) => b ∈ done ∧ g.Open b ∧ bf = (g.key b).1 ∧ be = (g.key b).2.1 ∧
      (0 < bf ∨ 0 < be) ∧ ∀ q ∈ done, g.Open q → RanksAbove (g.key b) (g.key q)

-- The fold passes a candidate by when nothing so far adds anything and neither does it.
theorem bestOf_none_append {g : Greedy} {done : List Candidate} {q : Candidate} {bf be : Nat}
    (held : g.BestOf done (none, bf, be))
    (nothing : g.Open q → (g.key q).1 = 0 ∧ (g.key q).2.1 = 0) :
    g.BestOf (done ++ [q]) (none, bf, be) := by
  obtain ⟨noFns, noEdges, none⟩ := held
  refine ⟨noFns, noEdges, fun q' member open' => ?_⟩
  rcases List.mem_append.mp member with old | new
  · exact none q' old open'
  · rw [List.mem_singleton.mp new] at open' ⊢
    exact nothing open'

-- The fold passes a candidate by when the best so far ranks at least as high.
theorem bestOf_some_append {g : Greedy} {done : List Candidate} {q b : Candidate} {bf be : Nat}
    (held : g.BestOf done (some b, bf, be))
    (below : g.Open q → RanksAbove (g.key b) (g.key q)) :
    g.BestOf (done ++ [q]) (some b, bf, be) := by
  obtain ⟨member, openB, counts, edges, gain, top⟩ := held
  refine ⟨List.mem_append_left _ member, openB, counts, edges, gain, fun q' member' open' => ?_⟩
  rcases List.mem_append.mp member' with old | new
  · exact top q' old open'
  · rw [List.mem_singleton.mp new] at open' ⊢
    exact below open'

-- The fold takes an open candidate that adds something and ranks above every open one before it.
theorem bestOf_take {g : Greedy} {done : List Candidate} {q : Candidate} (isOpen : g.Open q)
    (gain : 0 < (g.key q).1 ∨ 0 < (g.key q).2.1)
    (above : ∀ q' ∈ done, g.Open q' → RanksAbove (g.key q) (g.key q')) :
    g.BestOf (done ++ [q]) (some q, (g.key q).1, (g.key q).2.1) := by
  refine ⟨List.mem_append_right _ (List.mem_singleton_self q), isOpen, rfl, rfl, gain,
    fun q' member open' => ?_⟩
  rcases List.mem_append.mp member with old | new
  · exact above q' old open'
  · rw [List.mem_singleton.mp new]
    exact RanksAbove.refl _

/-- No open candidate adds more functions than the fold's count, nor, with as many functions,
more edges. -/
theorem BestOf.open_le {g : Greedy} {done : List Candidate} {best : Option Candidate}
    {bf be : Nat} (held : g.BestOf done (best, bf, be)) {q : Candidate} (member : q ∈ done)
    (isOpen : g.Open q) : (g.key q).1 ≤ bf ∧ ((g.key q).1 = bf → (g.key q).2.1 ≤ be) := by
  cases best with
  | none =>
    obtain ⟨rfl, rfl, none⟩ := held
    have nothing := none q member isOpen
    omega
  | some b =>
    obtain ⟨-, -, rfl, rfl, -, top⟩ := held
    have ranks := top q member isOpen
    unfold RanksAbove at ranks
    omega

/-- A round picks the open candidate that ranks highest, if one adds a function or an edge. The
fold keeps the highest-ranked so far: a later candidate replaces it only when it ranks strictly
higher on new functions, new edges and calls, so on a full tie the earlier index stays. -/
theorem best_spec (g : Greedy) {cands : List Candidate}
    (sorted : cands.Pairwise (·.index < ·.index)) : g.BestOf cands (g.best cands) := by
  unfold best
  split
  rename_i best bf be run
  refine foldl_prefix_invariant (fun done st => g.BestOf done st) (by simp [BestOf]) ?_ run
  rintro done q rest ⟨b, bf', be'⟩ split held
  have earlier : ∀ d ∈ done, d.index < q.index := fun d member =>
    (List.pairwise_append.mp (split ▸ sorted)).2.2 d member q List.mem_cons_self
  dsimp only
  by_cases isOpen : g.Open q
  case neg =>
    -- chosen, or of the other tier: the fold passes it by
    have closed : (g.chosen.getD q.index false || g.variableTier != q.varying) = true := by
      cases chosen : g.chosen.getD q.index false
      · have other : g.variableTier ≠ q.varying := fun same => isOpen ⟨chosen, same.symm⟩
        simpa using other
      · rfl
    rw [if_pos closed]
    cases b with
    | none => exact bestOf_none_append held (absurd · isOpen)
    | some b => exact bestOf_some_append held (absurd · isOpen)
  have stays : ¬(g.chosen.getD q.index false || g.variableTier != q.varying) = true := by
    simp [isOpen.1, isOpen.2]
  rw [if_neg stays]
  cases b with
  | none =>
    obtain ⟨rfl, rfl, none⟩ := held
    dsimp only
    split
    · -- the first open candidate that adds a function or an edge
      rename_i better
      simp only [Bool.or_eq_true, Bool.and_eq_true, decide_eq_true_eq, beq_iff_eq,
        Bool.false_eq_true, and_false, or_false] at better
      refine bestOf_take isOpen (by simp only [key]; omega) fun q' member open' => ?_
      have zero := none q' member open'
      unfold RanksAbove key at *
      dsimp only at zero ⊢
      omega
    · -- it adds nothing
      rename_i same
      simp only [Bool.or_eq_true, Bool.and_eq_true, decide_eq_true_eq, beq_iff_eq,
        Bool.false_eq_true, and_false, or_false, not_or, not_and, Nat.not_lt] at same
      refine bestOf_none_append ⟨rfl, rfl, none⟩ fun _ => ?_
      unfold key
      dsimp only
      omega
  | some b =>
    obtain ⟨member, openB, rfl, rfl, gain, top⟩ := held
    have ahead := earlier b member
    dsimp only
    split
    · -- strictly higher than the best so far on functions, edges and calls
      rename_i better
      simp only [Bool.or_eq_true, Bool.and_eq_true, decide_eq_true_eq, beq_iff_eq] at better
      have above : RanksAbove (g.key q) (g.key b) := by
        unfold RanksAbove key at *
        dsimp only at *
        omega
      refine bestOf_take isOpen ?_ fun q' member open' => above.trans (top q' member open')
      have higher := above
      unfold RanksAbove at higher
      simp only [key] at higher gain ⊢
      omega
    · -- not higher: the earlier index wins a full tie
      rename_i same
      simp only [Bool.or_eq_true, Bool.and_eq_true, decide_eq_true_eq, beq_iff_eq, not_or,
        not_and, Nat.not_lt] at same
      refine bestOf_some_append ⟨member, openB, rfl, rfl, gain, top⟩ fun _ => ?_
      unfold RanksAbove key at *
      dsimp only at *
      omega

/-- A round's pick of a candidate: its index is chosen and appended to the picks, and its
functions and edges are marked covered. -/
def pick (g : Greedy) (q : Candidate) : Greedy :=
  { g with
    chosen := g.chosen.setIfInBounds q.index true
    selected := g.selected ++ [q.index]
    fns := markAll g.fns q.fns
    edges := markAll g.edges q.edges }

/-- A greedy state records its picks: the chosen marks are the picks, and the covered sets are
the functions and edges that the picked sequences cover, the edges ascending. -/
structure Records (pool : Array Sequence) (g : Greedy) : Prop where
  chosen_size : g.chosen.size = pool.size
  chosen_iff : ∀ i, g.chosen.getD i false = true ↔ i ∈ g.selected
  fns_iff : ∀ f, f ∈ g.fns ↔ ∃ j ∈ g.selected, f ∈ (pool.getD j {}).covered
  edges_sorted : g.edges.Pairwise (· < ·)
  edges_iff : ∀ e, e ∈ g.edges ↔ ∃ j ∈ g.selected, e ∈ (pool.getD j {}).edges

variable {api : Api} {pool : Array Sequence} {g : Greedy}

theorem records_start : (Greedy.start pool).Records pool where
  chosen_size := by simp [Greedy.start]
  chosen_iff i := by simp only [Greedy.start, getD_replicate_false]; simp
  fns_iff f := by simp [Greedy.start]
  edges_sorted := List.Pairwise.nil
  edges_iff e := by simp [Greedy.start]

/-- Taking a candidate records it: its index is chosen, and its functions and edges covered. -/
theorem Records.pick (records : g.Records pool) {q : Candidate}
    (cand : q ∈ driverCandidates pool) : (g.pick q).Records pool := by
  unfold Greedy.pick
  obtain ⟨bound, -, -, -, fns, edges⟩ := mem_driverCandidates.mp cand
  refine ⟨by simp [records.chosen_size], fun i => ?_, fun f => ?_,
    markAll_sorted records.edges_sorted _, fun e => ?_⟩
  · rw [getD_setIfInBounds, List.mem_append, List.mem_singleton, ← records.chosen_iff]
    by_cases same : q.index = i
    · subst same
      simp [records.chosen_size, bound]
    · simp [same, Ne.symm same]
  · rw [fns]
    exact mem_markAll_pick records.fns_iff q.index f
  · rw [edges]
    exact mem_markAll_pick records.edges_iff q.index e

theorem Records.leaveTier (records : g.Records pool) :
    ({ g with variableTier := false } : Greedy).Records pool :=
  ⟨records.chosen_size, records.chosen_iff, records.fns_iff, records.edges_sorted,
    records.edges_iff⟩

/-- In a round that records the picks, a candidate's counts are what its sequence adds to them. -/
theorem Records.key_eq (records : g.Records pool) {c : Candidate}
    (cand : c ∈ driverCandidates pool) : g.key c = poolKey pool g.selected c.index := by
  obtain ⟨-, -, size, -, fns, edges⟩ := mem_driverCandidates.mp cand
  unfold key poolKey freshFns freshEdges countFresh
  rw [fns, edges, size]
  congr 1
  · refine List.countP_congr fun f _ => ?_
    simp [records.fns_iff f, List.all_eq_true]
  congr 1
  refine List.countP_congr fun e _ => ?_
  simp [records.edges_iff e, List.all_eq_true]


/-- What the greedy rounds keep: the state records the picks, and the picks are distinct valid
drivers, within the limit, those with a variable-length slot first (all of them while the first
tier lasts), each a greedy pick after the ones before it. -/
structure Sound (api : Api) (config : SelectConfig) (pool : Array Sequence) (g : Greedy) :
    Prop where
  records : g.Records pool
  nodup : g.selected.Nodup
  valid : ∀ i ∈ g.selected, i < pool.size ∧ (pool.getD i {}).isValidDriver = true
  within : g.selected.length ≤ config.maxSequences
  tiers : g.selected.Pairwise fun i j =>
    (pool.getD i {}).varCount = 0 → (pool.getD j {}).varCount = 0
  firstTier : g.variableTier = true → ∀ i ∈ g.selected, (pool.getD i {}).varCount ≠ 0
  greedy : ∀ n (h : n < g.selected.length), GreedyPick pool (g.selected.take n) g.selected[n]

variable {config : SelectConfig}

theorem sound_start : (Greedy.start pool).Sound api config pool where
  records := records_start
  nodup := List.nodup_nil
  valid := by simp [Greedy.start]
  within := Nat.zero_le _
  tiers := List.Pairwise.nil
  firstTier := by simp [Greedy.start]
  greedy := by simp [Greedy.start]

/-- A sequence of the pool not picked yet is open in the tier of its kind of slots. -/
theorem Records.open_unpicked (records : g.Records pool) {i : Nat} (unpicked : i ∉ g.selected)
    (tier : ((pool.getD i {}).varCount != 0) = g.variableTier) :
    g.Open ⟨i, (pool.getD i {}).size, (pool.getD i {}).varCount != 0,
      (pool.getD i {}).covered, (pool.getD i {}).edges⟩ := by
  refine ⟨?_, tier⟩
  cases marked : g.chosen.getD i false
  · rfl
  · exact absurd ((records.chosen_iff i).mp marked) unpicked

/-- An unpicked sequence of the pool, of the tier of an open candidate, is open in its turn. -/
theorem Records.open_candidate (records : g.Records pool) {q : Candidate} (isOpen : g.Open q)
    (varying : q.varying = ((pool.getD q.index {}).varCount != 0)) {i : Nat}
    (unpicked : i ∉ g.selected)
    (alike : (pool.getD i {}).varCount = 0 ↔ (pool.getD q.index {}).varCount = 0) :
    g.Open ⟨i, (pool.getD i {}).size, (pool.getD i {}).varCount != 0,
      (pool.getD i {}).covered, (pool.getD i {}).edges⟩ := by
  refine records.open_unpicked unpicked ?_
  rw [← isOpen.2, varying]
  by_cases slots : (pool.getD i {}).varCount = 0
  · rw [slots, alike.mp slots]
  · have slots' : (pool.getD q.index {}).varCount ≠ 0 := fun zero => slots (alike.mpr zero)
    have some : ((pool.getD i {}).varCount != 0) = true := by simpa using slots
    have some' : ((pool.getD q.index {}).varCount != 0) = true := by simpa using slots'
    rw [some, some']

/-- Leaving the first tier keeps the rounds sound. -/
theorem Sound.leaveTier (sound : g.Sound api config pool) :
    ({ g with variableTier := false } : Greedy).Sound api config pool :=
  ⟨sound.records.leaveTier, sound.nodup, sound.valid, sound.within, sound.tiers,
    fun leaving => absurd leaving Bool.false_ne_true, sound.greedy⟩

/-- Taking the open candidate that ranks highest, when it adds a function (in the first tier)
or a function or an edge, and the limit leaves room, keeps the rounds sound. -/
theorem Sound.pick (sound : g.Sound api config pool) {q : Candidate}
    (cand : q ∈ driverCandidates pool) (isOpen : g.Open q)
    (room : g.selected.length < config.maxSequences)
    (firstGain : g.variableTier = true → 0 < (g.key q).1)
    (gain : 0 < (g.key q).1 ∨ 0 < (g.key q).2.1)
    (top : ∀ c ∈ driverCandidates pool, g.Open c → RanksAbove (g.key q) (g.key c)) :
    (g.pick q).Sound api config pool := by
  obtain ⟨bound, valid, -, varying, -, -⟩ := mem_driverCandidates.mp cand
  have fresh : q.index ∉ g.selected := fun picked => by
    have marked := (sound.records.chosen_iff q.index).mpr picked
    rw [isOpen.1] at marked
    cases marked
  -- a pick with a variable-length slot is made in the first tier
  have first : (pool.getD q.index {}).varCount ≠ 0 → g.variableTier = true := by
    intro slots
    rw [← isOpen.2, varying]
    simpa using slots
  have keyEq := sound.records.key_eq cand
  refine ⟨sound.records.pick cand, ?_, ?_, ?_, ?_, ?_, ?_⟩ <;> unfold Greedy.pick <;> dsimp only
  · exact List.nodup_append.mpr ⟨sound.nodup, by simp,
      fun i old j new same => fresh (by rw [List.mem_singleton.mp new] at same; exact same ▸ old)⟩
  · intro i member
    rcases List.mem_append.mp member with old | new
    · exact sound.valid i old
    · rw [List.mem_singleton.mp new]; exact ⟨bound, valid⟩
  · simp only [List.length_append, List.length_singleton]
    omega
  · refine List.pairwise_append.mpr ⟨sound.tiers, List.pairwise_singleton _ _, ?_⟩
    intro i old j new fixed
    rw [List.mem_singleton.mp new]
    by_cases slots : (pool.getD q.index {}).varCount = 0
    · exact slots
    · exact absurd fixed (sound.firstTier (first slots) i old)
  · intro tier i member
    rcases List.mem_append.mp member with old | new
    · exact sound.firstTier tier i old
    · rw [List.mem_singleton.mp new]
      have slots : q.varying = true := isOpen.2.trans tier
      rw [varying] at slots
      simpa using slots
  · intro n below
    simp only [List.length_append, List.length_singleton] at below
    rcases Nat.lt_succ_iff_lt_or_eq.mp below with old | rfl
    · rw [List.take_append_of_le_length (Nat.le_of_lt old), List.getElem_append_left old]
      exact sound.greedy n old
    · rw [List.take_left', List.getElem_append_right (Nat.le_refl _)]
      · simp only [Nat.sub_self, List.getElem_singleton]
        rw [keyEq] at firstGain gain
        refine ⟨fun slots => firstGain (first slots), gain, ?_⟩
        intro i range validI unpicked alike
        have candI := candidate_mem range validI
        have ranks := top _ candI (sound.records.open_candidate isOpen varying unpicked alike)
        rw [keyEq, sound.records.key_eq candI] at ranks
        exact ranks
      · rfl


/-- The rounds a selection may still go on for: one per candidate not chosen yet, and one more
while the first tier lasts. -/
def pending (g : Greedy) (cands : List Candidate) : Nat :=
  cands.countP (fun q => !g.chosen.getD q.index false) + if g.variableTier then 1 else 0

/-- Picking an open candidate of the list takes one round off. -/
theorem pending_pick (records : g.Records pool) {cands : List Candidate} {q : Candidate}
    (member : q ∈ cands) (bound : q.index < pool.size) (isOpen : g.Open q) :
    (g.pick q).pending cands < g.pending cands := by
  unfold pending pick
  dsimp only
  -- a candidate open after the pick was open before it, and `q` no longer is
  have fewer : cands.countP (fun c => !(g.chosen.setIfInBounds q.index true).getD c.index false) <
      cands.countP (fun c => !g.chosen.getD c.index false) := by
    refine countP_lt_countP (fun c _ after => ?_) member (by simp [isOpen.1]) ?_
    · rw [getD_setIfInBounds] at after
      split at after
      · cases after
      · exact after
    · rw [getD_setIfInBounds, if_pos ⟨rfl, records.chosen_size ▸ bound⟩]
      rfl
  omega

theorem pending_le (g : Greedy) (cands : List Candidate) :
    g.pending cands ≤ cands.length + 1 := by
  have bounded := cands.countP_le_length (p := fun q => !g.chosen.getD q.index false)
  unfold pending
  split <;> omega

theorem pending_leaveTier (tier : g.variableTier = true) (cands : List Candidate) :
    ({ g with variableTier := false } : Greedy).pending cands < g.pending cands := by
  simp [pending, tier]

end Greedy

/-- The tests after a pick that end the rounds: every candidate taken, every edge of a graph with
edges covered, or, when asked, as many functions covered as there are to cover. -/
def Greedy.Finished (api : Api) (config : SelectConfig) (cands : List Candidate) (toCover : Nat)
    (g : Greedy) : Prop :=
  g.selected.length = cands.length ∨
    (api.graph.numEdges ≠ 0 ∧ g.edges.length = api.graph.numEdges) ∨
    (config.stopAtAllFunctions = true ∧ g.fns.length = toCover)

namespace Api

variable {api : Api} {config : SelectConfig} {pool : Array Sequence} {cands : List Candidate}
  {toCover : Nat}

/-- One round stops (at the limit, or in the second tier with nothing to add), leaves the first
tier (nothing adds a function), or picks the open candidate that ranks highest and then stops on
a test or goes on. -/
theorem greedyRounds_step (sorted : cands.Pairwise (·.index < ·.index)) (g : Greedy) :
    ((config.maxSequences ≤ g.selected.length ∨ g.variableTier = false ∧
        ∀ q ∈ cands, g.Open q → (g.key q).1 = 0 ∧ (g.key q).2.1 = 0) ∧
        ∀ fuel, api.greedyRounds config cands toCover (fuel + 1) g = g) ∨
      (g.variableTier = true ∧ (∀ q ∈ cands, g.Open q → (g.key q).1 = 0) ∧
        ∀ fuel, api.greedyRounds config cands toCover (fuel + 1) g =
          api.greedyRounds config cands toCover fuel { g with variableTier := false }) ∨
      ∃ q, g.BestOf cands (some q, (g.key q).1, (g.key q).2.1) ∧
        g.selected.length < config.maxSequences ∧ (g.variableTier = true → 0 < (g.key q).1) ∧
        ((Greedy.Finished api config cands toCover (g.pick q) ∧
            ∀ fuel, api.greedyRounds config cands toCover (fuel + 1) g = g.pick q) ∨
          ∀ fuel, api.greedyRounds config cands toCover (fuel + 1) g =
            api.greedyRounds config cands toCover fuel (g.pick q)) := by
  by_cases full : config.maxSequences ≤ g.selected.length
  · exact .inl ⟨.inl full, fun fuel => by rw [greedyRounds, if_pos full]⟩
  have spec := g.best_spec sorted
  rcases found : g.best cands with ⟨best, bf, be⟩
  rw [found] at spec
  -- the round's decisions read only the best candidate and its counts
  have unfolded : ∀ fuel, api.greedyRounds config cands toCover (fuel + 1) g =
      if (g.variableTier && bf == 0) = true then
        api.greedyRounds config cands toCover fuel { g with variableTier := false }
      else if (!g.variableTier && bf == 0 && be == 0) = true then g
      else best.elim g fun q =>
          if ((g.pick q).selected.length == cands.length) = true then g.pick q
          else if (api.graph.numEdges != 0 &&
              (g.pick q).edges.length == api.graph.numEdges) = true then g.pick q
          else if (config.stopAtAllFunctions &&
              (g.pick q).fns.length == toCover) = true then g.pick q
          else api.greedyRounds config cands toCover fuel (g.pick q) := by
    intro fuel
    rw [greedyRounds, if_neg full, found]
    cases best <;> rfl
  by_cases switching : (g.variableTier && bf == 0) = true
  · have tier : g.variableTier = true ∧ bf = 0 := by simpa using switching
    refine .inr (.inl ⟨tier.1, fun q member isOpen => ?_, fun fuel => ?_⟩)
    · have fewer := (spec.open_le member isOpen).1
      omega
    · rw [unfolded, if_pos switching]
  by_cases exhausted : (!g.variableTier && bf == 0 && be == 0) = true
  · have tier : (g.variableTier = false ∧ bf = 0) ∧ be = 0 := by simpa using exhausted
    refine .inl ⟨.inr ⟨tier.1.1, fun q member isOpen => ?_⟩,
      fun fuel => by rw [unfolded, if_neg switching, if_pos exhausted]⟩
    have fewer := spec.open_le member isOpen
    omega
  cases best with
  | none =>
    -- with nothing to add, one of the two guards above has already stopped the round
    obtain ⟨rfl, rfl, -⟩ := spec
    cases tier : g.variableTier <;> simp [tier] at switching exhausted
  | some q =>
    obtain ⟨member, isOpen, rfl, rfl, gain, top⟩ := spec
    refine .inr (.inr ⟨q, ⟨member, isOpen, rfl, rfl, gain, top⟩, by omega,
      fun tier => by simp [tier] at switching; omega, ?_⟩)
    simp only [unfolded, if_neg switching, if_neg exhausted, Option.elim]
    by_cases stop₁ : ((g.pick q).selected.length == cands.length) = true
    · exact .inl ⟨.inl (by simpa using stop₁), fun fuel => by rw [if_pos stop₁]⟩
    by_cases stop₂ : (api.graph.numEdges != 0 &&
        (g.pick q).edges.length == api.graph.numEdges) = true
    · exact .inl ⟨.inr (.inl (by simpa using stop₂)),
        fun fuel => by rw [if_neg stop₁, if_pos stop₂]⟩
    by_cases stop₃ : (config.stopAtAllFunctions &&
        (g.pick q).fns.length == toCover) = true
    · exact .inl ⟨.inr (.inr (by simpa using stop₃)),
        fun fuel => by rw [if_neg stop₁, if_neg stop₂, if_pos stop₃]⟩
    exact .inr fun fuel => by rw [if_neg stop₁, if_neg stop₂, if_neg stop₃]

/-- Every run of rounds over the pool's candidates keeps a selection sound. -/
theorem greedyRounds_sound :
    ∀ fuel (g : Greedy), g.Sound api config pool →
      (api.greedyRounds config (driverCandidates pool) toCover fuel g).Sound api config pool
  | 0, _, sound => sound
  | fuel + 1, g, sound => by
    rcases greedyRounds_step (driverCandidates_sorted pool) g with
      ⟨-, stays⟩ | ⟨-, -, leaves⟩ |
        ⟨q, ⟨member, isOpen, -, -, gain, top⟩, room, firstGain, ⟨-, ends⟩ | goes⟩
    · rw [stays]
      exact sound
    · rw [leaves]
      exact greedyRounds_sound fuel _ sound.leaveTier
    · rw [ends]
      exact sound.pick member isOpen room firstGain gain top
    · rw [goes]
      exact greedyRounds_sound fuel _ (sound.pick member isOpen room firstGain gain top)

/-- Rounds end before their fuel does: with more fuel than rounds pending, more fuel changes
nothing. -/
theorem greedyRounds_add :
    ∀ fuel (g : Greedy), g.Records pool → g.pending (driverCandidates pool) < fuel →
      ∀ extra, api.greedyRounds config (driverCandidates pool) toCover (fuel + extra) g =
        api.greedyRounds config (driverCandidates pool) toCover fuel g
  | 0, _, _, short, _ => absurd short (Nat.not_lt_zero _)
  | fuel + 1, g, records, short, extra => by
    rw [Nat.add_right_comm]
    rcases greedyRounds_step (driverCandidates_sorted pool) g with
      ⟨-, stays⟩ | ⟨tier, -, leaves⟩ | ⟨q, ⟨member, isOpen, -⟩, -, -, ⟨-, ends⟩ | goes⟩
    · rw [stays, stays]
    · rw [leaves, leaves]
      have fewer := g.pending_leaveTier tier (driverCandidates pool)
      exact greedyRounds_add fuel _ records.leaveTier (by omega) extra
    · rw [ends, ends]
    · rw [goes, goes]
      have fewer := g.pending_pick records member (mem_driverCandidates.mp member).1 isOpen
      exact greedyRounds_add fuel _ (records.pick member) (by omega) extra

/-- Heuristic selection is a two-tier greedy choice: its rounds end within their fuel, and its picks
are distinct valid drivers within the limit, variable-length ones first, each adding to the
earlier picks and ranking highest in its tier. -/
theorem heuristic_greedy :
    ∃ picks : List Nat, api.heuristic config pool = picks.map (pool.getD · {}) ∧
      (∀ extra, (api.greedyRounds config (driverCandidates pool) (reachCount pool)
        ((driverCandidates pool).length + 2 + extra) (Greedy.start pool)).selected = picks) ∧
      picks.Nodup ∧ picks.length ≤ config.maxSequences ∧
      (∀ i ∈ picks, i < pool.size ∧ (pool.getD i {}).isValidDriver = true) ∧
      picks.Pairwise (fun i j => (pool.getD i {}).varCount = 0 → (pool.getD j {}).varCount = 0) ∧
      ∀ n (h : n < picks.length), GreedyPick pool (picks.take n) picks[n] := by
  let g := api.greedyRounds config (driverCandidates pool) (reachCount pool)
    ((driverCandidates pool).length + 2) (Greedy.start pool)
  have sound : g.Sound api config pool := greedyRounds_sound _ _ Greedy.sound_start
  refine ⟨g.selected, rfl, fun extra => ?_, sound.nodup, sound.within, sound.valid, sound.tiers,
    sound.greedy⟩
  -- the start has every candidate and the first tier pending, fewer than the fuel
  have start := (Greedy.start pool).pending_le (driverCandidates pool)
  rw [greedyRounds_add _ _ Greedy.records_start (by omega) extra]

end Api

end DriverSynth
