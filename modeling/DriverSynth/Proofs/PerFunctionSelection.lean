import DriverSynth.Proofs.MergeAlgebra
import DriverSynth.Proofs.Selection
import Mathlib

/-! # Per-function random selection

Each round takes the first required function left: it is dropped when no unused sequence calls
it; otherwise a draw picks an unused sequence that calls it, and every function that sequence calls
is dropped (`pickRound`). For any draws in range, every round drops a function, so the rounds stop
within their fuel (`stopsAfter_exists`), and every round keeps `PickState.Sound`; with room for
every required function, every one the pool calls is called by a pick. Through `Api.select` the
required functions are the pool's own (`Api.poolFunctions`). Main statement:
`perFunctionRandom_covers`.
-/

namespace DriverSynth

namespace Twister

-- The upper half of a drawn word times `range` is below `range`.
theorem product_div_lt {x range : Nat} (drawn : x < Nat.pow 2 64) (positive : 0 < range) :
    x * range / Nat.pow 2 64 < range := by
  rw [Nat.div_lt_iff_lt_mul (by decide)]
  calc x * range < Nat.pow 2 64 * range := Nat.mul_lt_mul_of_pos_right drawn positive
    _ = range * Nat.pow 2 64 := Nat.mul_comm _ _

/-- Redrawing keeps a product of a drawn word and the range. -/
theorem redraw_product (range floor : Nat) :
    ∀ fuel product (g : Twister), (∃ x < Nat.pow 2 64, product = x * range) →
      ∃ x < Nat.pow 2 64, (redraw range floor fuel product g).1 = x * range
  | 0, _, _, drawn => drawn
  | fuel + 1, product, g, drawn => by
    unfold redraw
    split
    · rcases next : g.next with ⟨x, g'⟩
      exact redraw_product range floor fuel _ g' ⟨x.toNat, x.toNat_lt, rfl⟩
    · exact drawn

/-- A draw from `0` to `hi` is at most `hi`. -/
theorem upTo_le (g : Twister) (hi : Nat) : (g.upTo hi).1 ≤ hi := by
  unfold upTo
  rcases next : g.next with ⟨x, g'⟩
  have word : x.toNat < Nat.pow 2 64 := x.toNat_lt
  dsimp only
  split
  · -- the range covers every word
    have whole : Nat.pow 2 64 = 18446744073709551616 := rfl
    omega
  · split
    · obtain ⟨y, drawn, product⟩ := redraw_product (hi + 1) ((Nat.pow 2 64 - (hi + 1)) % (hi + 1))
        256 (x.toNat * (hi + 1)) g' ⟨x.toNat, word, rfl⟩
      rcases redrawn : redraw (hi + 1) ((Nat.pow 2 64 - (hi + 1)) % (hi + 1)) 256
        (x.toNat * (hi + 1)) g' with ⟨p, g''⟩
      rw [redrawn] at product
      have below : y * (hi + 1) / Nat.pow 2 64 < hi + 1 := product_div_lt drawn (by omega)
      dsimp only at product ⊢
      rw [product]
      omega
    · have below : x.toNat * (hi + 1) / Nat.pow 2 64 < hi + 1 := product_div_lt word (by omega)
      dsimp only
      omega

end Twister

/-- Where per-function selection stands between two rounds: the functions still to cover, the
marks of the sequences used, the generator, and the pool indices picked, in order. -/
structure PickState (γ : Type) where
  toCover : List Nat
  used : Array Bool
  rng : γ
  picks : List Nat

section Rounds

variable {γ : Type} (draw : γ → Nat → Nat × γ) (limit : Nat) (pool : Array Sequence)

/-- The unused sequences of the pool that call `f`, by ascending index. -/
def unusedCallers (used : Array Bool) (f : Nat) : List Nat :=
  (List.range pool.size).filter fun i => !used.getD i false && (pool.getD i {}).covered.contains f

/-- One round of per-function selection, `none` at the limit or with no function left: it drops the
first function left when no unused sequence calls it, or picks a drawn one that does and drops
every function that one calls. -/
def pickRound (st : PickState γ) : Option (PickState γ) :=
  if limit ≤ st.picks.length then none
  else
    match st.toCover with
    | [] => none
    | next :: rest =>
      let unused := unusedCallers pool st.used next
      if unused.isEmpty then some { st with toCover := rest }
      else
        let (k, rng) := draw st.rng (unused.length - 1)
        let pick := unused.getD k 0
        some ⟨st.toCover.filter (!(pool.getD pick {}).covered.contains ·),
          st.used.setIfInBounds pick true, rng, st.picks ++ [pick]⟩

/-- From `st`, the rounds go on `n` times and then stop at `final`, where the loop's test fails. -/
inductive StopsAfter : PickState γ → Nat → PickState γ → Prop
  | stop {st : PickState γ} : pickRound draw limit pool st = none → StopsAfter st 0 st
  | round {st st' final : PickState γ} {n : Nat} : pickRound draw limit pool st = some st' →
      StopsAfter st' n final → StopsAfter st (n + 1) final

variable {draw limit pool}

/-- A round of the selection with fuel is a round of `pickRound`, on the sequences picked. -/
theorem go_succ (fuel : Nat) (st : PickState γ) :
    perFunctionPickWith.go draw limit pool (fuel + 1) st.toCover st.used st.rng
        (st.picks.map (pool.getD · {})) =
      (pickRound draw limit pool st).elim (st.picks.map (pool.getD · {})) fun st' =>
        perFunctionPickWith.go draw limit pool fuel st'.toCover st'.used st'.rng
          (st'.picks.map (pool.getD · {})) := by
  obtain ⟨toCover, used, rng, picks⟩ := st
  simp only [perFunctionPickWith.go, pickRound, unusedCallers, List.length_map]
  split
  · rfl
  · cases toCover with
    | nil => rfl
    | cons next rest =>
      dsimp only
      split
      · rename_i none
        simp only [none, if_true, Option.elim]
      · rename_i some
        simp only [some, Bool.false_eq_true, if_false, Option.elim, List.map_append,
          List.map_singleton]

/-- Rounds that stop by the loop's test within the fuel give the sequences picked by then. -/
theorem go_of_stopsAfter {st final : PickState γ} {n : Nat}
    (stops : StopsAfter draw limit pool st n final) :
    ∀ fuel, n < fuel → perFunctionPickWith.go draw limit pool fuel st.toCover st.used st.rng
      (st.picks.map (pool.getD · {})) = final.picks.map (pool.getD · {}) := by
  induction stops with
  | stop stopped =>
    intro fuel more
    obtain ⟨fuel, rfl⟩ : ∃ f, fuel = f + 1 := ⟨fuel - 1, by omega⟩
    rw [go_succ, stopped]
    rfl
  | round next _ ih =>
    intro fuel more
    obtain ⟨fuel, rfl⟩ : ∃ f, fuel = f + 1 := ⟨fuel - 1, by omega⟩
    rw [go_succ, next]
    exact ih fuel (by omega)

theorem mem_unusedCallers {used : Array Bool} {f i : Nat} :
    i ∈ unusedCallers pool used f ↔
      i < pool.size ∧ used.getD i false = false ∧ f ∈ (pool.getD i {}).covered := by
  simp [unusedCallers]

/-- What a round that goes on did: with room under the limit, it took the first function left,
and either no unused sequence calls it and it is dropped, or an unused sequence that calls it is
picked and every function that sequence calls is dropped. -/
theorem pickRound_cases (inRange : ∀ g n, (draw g n).1 ≤ n) {st st' : PickState γ}
    (next : pickRound draw limit pool st = some st') :
    st.picks.length < limit ∧ ∃ f rest, st.toCover = f :: rest ∧
      ((unusedCallers pool st.used f = [] ∧ st' = { st with toCover := rest }) ∨
        ∃ pick rng, pick ∈ unusedCallers pool st.used f ∧
          st' = ⟨st.toCover.filter (!(pool.getD pick {}).covered.contains ·),
            st.used.setIfInBounds pick true, rng, st.picks ++ [pick]⟩) := by
  unfold pickRound at next
  split at next
  · cases next
  rename_i room
  refine ⟨by omega, ?_⟩
  split at next
  · cases next
  rename_i f rest left
  refine ⟨f, rest, left, ?_⟩
  dsimp only at next
  split at next
  · rename_i none
    exact .inl ⟨List.isEmpty_iff.mp none, (Option.some.inj next).symm⟩
  · rename_i some
    -- the draw lies in the range, so the pick is one of the unused callers
    have drawn := inRange st.rng ((unusedCallers pool st.used f).length - 1)
    rcases draws : draw st.rng ((unusedCallers pool st.used f).length - 1) with ⟨k, rng⟩
    rw [draws] at drawn next
    have nonempty : 0 < (unusedCallers pool st.used f).length :=
      List.length_pos_iff.mpr (by simpa using some)
    have inside : k < (unusedCallers pool st.used f).length := by
      dsimp only at drawn
      omega
    refine .inr ⟨_, rng, ?_, (Option.some.inj next).symm⟩
    rw [List.getD_eq_getElem?_getD, List.getElem?_eq_getElem inside, Option.getD_some]
    exact List.getElem_mem inside

/-- A round that stops has reached the limit or left no function. -/
theorem pickRound_eq_none {st : PickState γ} (stopped : pickRound draw limit pool st = none) :
    limit ≤ st.picks.length ∨ st.toCover = [] := by
  unfold pickRound at stopped
  split at stopped
  · exact .inl ‹_›
  split at stopped
  · exact .inr ‹_›
  · dsimp only at stopped
    split at stopped <;> cases stopped

-- Dropping the functions a pick calls drops the function it was picked for.
theorem length_filter_lt {toCover : List Nat} {fns : List Nat} {f : Nat} (left : f ∈ toCover)
    (called : f ∈ fns) : (toCover.filter (!fns.contains ·)).length < toCover.length :=
  List.length_filter_lt_length_iff_exists.mpr ⟨f, left, by simp [called]⟩

/-- Every round that goes on drops a function. -/
theorem pickRound_shrinks (inRange : ∀ g n, (draw g n).1 ≤ n) {st st' : PickState γ}
    (next : pickRound draw limit pool st = some st') :
    st'.toCover.length < st.toCover.length := by
  obtain ⟨-, f, rest, left, ⟨-, rfl⟩ | ⟨pick, rng, unused, rfl⟩⟩ := pickRound_cases inRange next
  · simp [left]
  · exact length_filter_lt (left ▸ List.mem_cons_self) (mem_unusedCallers.mp unused).2.2

/-- The rounds stop by the loop's test, within as many rounds as there are functions left. -/
theorem stopsAfter_exists (inRange : ∀ g n, (draw g n).1 ≤ n) (st : PickState γ) :
    ∃ n final, StopsAfter draw limit pool st n final ∧ n ≤ st.toCover.length := by
  cases next : pickRound draw limit pool st with
  | none => exact ⟨0, st, .stop next, Nat.zero_le _⟩
  | some st' =>
    have shorter := pickRound_shrinks inRange next
    obtain ⟨n, final, stops, bound⟩ := stopsAfter_exists inRange st'
    exact ⟨n + 1, final, .round next stops, by omega⟩
termination_by st.toCover.length

end Rounds

/-- What the rounds keep: the used marks are the picks, distinct sequences each calling a required
function; the functions left are required; and a required function no longer left that the pool
calls is called by a pick. -/
structure PickState.Sound {γ : Type} (pool : Array Sequence) (required : List Nat)
    (st : PickState γ) : Prop where
  used_size : st.used.size = pool.size
  used_iff : ∀ i, st.used.getD i false = true ↔ i ∈ st.picks
  nodup : st.picks.Nodup
  picks_valid : ∀ i ∈ st.picks, i < pool.size ∧ ∃ f ∈ required, f ∈ (pool.getD i {}).covered
  left_required : ∀ f ∈ st.toCover, f ∈ required
  dropped : ∀ f ∈ required, f ∉ st.toCover → ∀ i < pool.size, f ∈ (pool.getD i {}).covered →
    ∃ j ∈ st.picks, f ∈ (pool.getD j {}).covered
  budget : st.picks.length + st.toCover.length ≤ required.length

namespace PickState

variable {γ : Type} {draw : γ → Nat → Nat × γ} {limit : Nat} {pool : Array Sequence}
  {required : List Nat}

theorem sound_start (source : γ) :
    (⟨required, Array.replicate pool.size false, source, []⟩ : PickState γ).Sound pool required where
  used_size := Array.size_replicate
  used_iff i := by
    rw [getD_replicate_false]
    simp
  nodup := List.nodup_nil
  picks_valid i member := absurd member List.not_mem_nil
  left_required _ member := member
  dropped f member absent := absurd member absent
  budget := by simp

/-- Dropping a function that no unused sequence calls keeps the selection sound: every sequence
that calls it is used, so picked. -/
theorem Sound.drop {st : PickState γ} (sound : st.Sound pool required) {f : Nat} {rest : List Nat}
    (left : st.toCover = f :: rest) (none : unusedCallers pool st.used f = []) :
    ({ st with toCover := rest } : PickState γ).Sound pool required where
  used_size := sound.used_size
  used_iff := sound.used_iff
  nodup := sound.nodup
  picks_valid := sound.picks_valid
  left_required g member := sound.left_required g (by rw [left]; exact List.mem_cons_of_mem _ member)
  dropped g member absent i bound called := by
    by_cases same : g = f
    · -- the sequence is not an unused caller, so it is used, so picked
      subst same
      have used : st.used.getD i false = true := by
        by_contra unused
        have caller : i ∈ unusedCallers pool st.used g :=
          mem_unusedCallers.mpr ⟨bound, by simpa using unused, called⟩
        rw [none] at caller
        cases caller
      exact ⟨i, (sound.used_iff i).mp used, called⟩
    · exact sound.dropped g member (by rw [left]; simp [same, absent]) i bound called
  budget := by
    have budget := sound.budget
    rw [left, List.length_cons] at budget
    dsimp only
    omega

/-- Picking an unused sequence that calls the first function left keeps the selection sound. -/
theorem Sound.pick {st : PickState γ} (sound : st.Sound pool required) {f : Nat}
    {rest : List Nat} (left : st.toCover = f :: rest) {pick : Nat}
    (unused : pick ∈ unusedCallers pool st.used f) (rng : γ) :
    (⟨st.toCover.filter (!(pool.getD pick {}).covered.contains ·),
      st.used.setIfInBounds pick true, rng, st.picks ++ [pick]⟩ : PickState γ).Sound
        pool required := by
  obtain ⟨bound, free, calls⟩ := mem_unusedCallers.mp unused
  have first : f ∈ st.toCover := by rw [left]; exact List.mem_cons_self
  have fresh : pick ∉ st.picks := fun picked => by
    rw [← sound.used_iff, free] at picked
    cases picked
  refine ⟨by rw [Array.size_setIfInBounds, sound.used_size], fun i => ?_, ?_, ?_, ?_, ?_, ?_⟩
  · rw [getD_setIfInBounds, sound.used_size, List.mem_append, List.mem_singleton,
      ← sound.used_iff]
    by_cases same : pick = i
    · subst same
      simp [bound]
    · simp [same, Ne.symm same]
  · exact List.nodup_append.mpr ⟨sound.nodup, List.nodup_singleton _,
      fun a picked b single => by
        rw [List.mem_singleton.mp single]
        exact fun same => fresh (same ▸ picked)⟩
  · intro i member
    rcases List.mem_append.mp member with old | new
    · exact sound.picks_valid i old
    · rw [List.mem_singleton.mp new]
      exact ⟨bound, f, sound.left_required f first, calls⟩
  · intro g member
    exact sound.left_required g (List.mem_filter.mp member).1
  · intro g member absent i inPool called
    by_cases before : g ∈ st.toCover
    · -- still left before the pick, dropped by it: the pick calls it
      have callsG : (pool.getD pick {}).covered.contains g = true := by
        by_contra notCalled
        exact absent (List.mem_filter.mpr ⟨before, by simpa using notCalled⟩)
      exact ⟨pick, List.mem_append_right _ (List.mem_singleton_self _),
        List.contains_iff_mem.mp callsG⟩
    · obtain ⟨j, picked, callsJ⟩ := sound.dropped g member before i inPool called
      exact ⟨j, List.mem_append_left _ picked, callsJ⟩
  · have shorter := length_filter_lt first calls
    have budget := sound.budget
    simp only [List.length_append, List.length_singleton]
    omega

/-- Every round keeps the selection sound. -/
theorem Sound.round (inRange : ∀ g n, (draw g n).1 ≤ n) {st st' : PickState γ}
    (sound : st.Sound pool required) (next : pickRound draw limit pool st = some st') :
    st'.Sound pool required := by
  obtain ⟨-, f, rest, left, ⟨none, rfl⟩ | ⟨pick, rng, unused, rfl⟩⟩ := pickRound_cases inRange next
  · exact sound.drop left none
  · exact sound.pick left unused rng

/-- Rounds that stop end sound. -/
theorem Sound.stopsAfter (inRange : ∀ g n, (draw g n).1 ≤ n) {st final : PickState γ} {n : Nat}
    (stops : StopsAfter draw limit pool st n final) (sound : st.Sound pool required) :
    final.Sound pool required := by
  induction stops with
  | stop => exact sound
  | round next _ ih => exact ih (sound.round inRange next)

/-- Where the rounds stop with a limit of at least the required functions, no function is left. -/
theorem Sound.toCover_eq_nil {st : PickState γ} (sound : st.Sound pool required)
    (stopped : pickRound draw limit pool st = none) (room : required.length ≤ limit) :
    st.toCover = [] := by
  rcases pickRound_eq_none stopped with full | empty
  · have budget := sound.budget
    exact List.length_eq_zero_iff.mp (by omega)
  · exact empty

/-- Where the rounds stop with a limit of at least the required functions, every required
function that some sequence of the pool calls is called by a pick. -/
theorem Sound.covers {st : PickState γ} (sound : st.Sound pool required)
    (stopped : pickRound draw limit pool st = none) (room : required.length ≤ limit) {f : Nat}
    (member : f ∈ required) (pooled : ∃ i < pool.size, f ∈ (pool.getD i {}).covered) :
    ∃ i ∈ st.picks, f ∈ (pool.getD i {}).covered := by
  obtain ⟨i, bound, called⟩ := pooled
  exact sound.dropped f member (by simp [sound.toCover_eq_nil stopped room]) i bound called

end PickState

/-- The state where rounds stop fails the loop's test. -/
theorem StopsAfter.stopped {γ : Type} {draw : γ → Nat → Nat × γ} {limit : Nat}
    {pool : Array Sequence} {st final : PickState γ} {n : Nat}
    (stops : StopsAfter draw limit pool st n final) : pickRound draw limit pool final = none := by
  induction stops with
  | stop stopped => exact stopped
  | round _ _ ih => exact ih

/-- Per-function selection runs its rounds from no picks until the loop's test stops them, within
as many rounds as there are required functions, and returns the sequences picked by then; the
rounds end sound. -/
theorem perFunctionPickWith_run {γ : Type} {draw : γ → Nat → Nat × γ}
    (inRange : ∀ g n, (draw g n).1 ≤ n) (limit : Nat) (pool : Array Sequence)
    (required : List Nat) (source : γ) :
    ∃ rounds final, StopsAfter draw limit pool
        ⟨required, Array.replicate pool.size false, source, []⟩ rounds final ∧
      rounds ≤ required.length ∧ final.Sound pool required ∧
      perFunctionPickWith draw limit pool required source = final.picks.map (pool.getD · {}) := by
  obtain ⟨rounds, final, stops, bound⟩ := stopsAfter_exists inRange
    (⟨required, Array.replicate pool.size false, source, []⟩ : PickState γ)
  -- the selection's fuel is one more round than there are required functions
  exact ⟨rounds, final, stops, bound, (PickState.sound_start source).stopsAfter inRange stops,
    go_of_stopsAfter stops (required.length + 1) (by simp at bound; omega)⟩


namespace Api

/-- A pool's functions, inserted after the functions `init`, are the functions of `init` and
those that a sequence of the pool calls. -/
theorem mem_foldl_covered {f : Nat} (qs : List Sequence) (init : List Nat) :
    f ∈ qs.foldl (fun acc q => q.covered.foldl (fun acc g => insertOrdered g acc) acc) init ↔
      f ∈ init ∨ ∃ q ∈ qs, f ∈ q.covered := by
  induction qs generalizing init with
  | nil => simp
  | cons q rest ih =>
    rw [List.foldl_cons, ih, mem_foldl_insertOrdered]
    simp only [List.mem_cons, exists_eq_or_imp]
    tauto

theorem pairwise_foldl_covered (qs : List Sequence) {init : List Nat}
    (sorted : init.Pairwise (· < ·)) :
    (qs.foldl (fun acc q => q.covered.foldl (fun acc g => insertOrdered g acc) acc) init).Pairwise
      (· < ·) := by
  induction qs generalizing init with
  | nil => exact sorted
  | cons q rest ih => exact ih (pairwise_foldl_insertOrdered _ sorted)

/-- The functions the pool calls are ascending, and are those that some sequence of the pool
calls. -/
theorem poolFunctions_spec (pool : Array Sequence) :
    (poolFunctions pool).Pairwise (· < ·) ∧
      ∀ f, f ∈ poolFunctions pool ↔ ∃ i < pool.size, f ∈ (pool.getD i {}).covered := by
  unfold poolFunctions
  rw [← Array.foldl_toList]
  refine ⟨pairwise_foldl_covered _ List.Pairwise.nil, fun f => ?_⟩
  rw [mem_foldl_covered]
  constructor
  · rintro (nothing | ⟨q, pooled, called⟩)
    · cases nothing
    · obtain ⟨i, bound, rfl⟩ := List.getElem_of_mem pooled
      have inside : i < pool.size := by simpa using bound
      refine ⟨i, inside, ?_⟩
      rw [Array.getD_eq_getD_getElem?, Array.getElem?_eq_getElem inside, Option.getD_some]
      simpa using called
  · rintro ⟨i, bound, called⟩
    exact .inr ⟨pool.getD i {}, getD_mem_toList bound, called⟩

end Api

/-- For every draw in range, per-function selection stops within a round per required function,
with distinct picks each calling a required one and, given room, calling each required function
the pool calls; through `Api.select` it calls exactly what the pool calls. -/
theorem perFunctionRandom_covers {γ : Type} {draw : γ → Nat → Nat × γ}
    (inRange : ∀ g n, (draw g n).1 ≤ n) (limit : Nat) (pool : Array Sequence)
    (required : List Nat) (source : γ) :
    (∃ picks : List Nat,
      perFunctionPickWith draw limit pool required source = picks.map (pool.getD · {}) ∧
      (∃ rounds final, StopsAfter draw limit pool
          ⟨required, Array.replicate pool.size false, source, []⟩ rounds final ∧
        rounds ≤ required.length ∧ final.picks = picks) ∧
      picks.Nodup ∧
      (∀ i ∈ picks, i < pool.size ∧ ∃ f ∈ required, f ∈ (pool.getD i {}).covered) ∧
      (required.length ≤ limit → ∀ f ∈ required, (∃ i < pool.size, f ∈ (pool.getD i {}).covered) →
        ∃ i ∈ picks, f ∈ (pool.getD i {}).covered)) ∧
    (Api.poolFunctions pool).Pairwise (· < ·) ∧
    (∀ f, f ∈ Api.poolFunctions pool ↔ ∃ i < pool.size, f ∈ (pool.getD i {}).covered) ∧
    ∀ (api : Api) (config : SelectConfig), (Api.poolFunctions pool).length ≤ config.maxSequences →
      ∀ f, (∃ q ∈ (api.select config pool .perFunctionRandom).1, f ∈ q.covered) ↔
        ∃ i < pool.size, f ∈ (pool.getD i {}).covered := by
  obtain ⟨rounds, final, stops, bound, sound, result⟩ :=
    perFunctionPickWith_run inRange limit pool required source
  obtain ⟨sorted, members⟩ := Api.poolFunctions_spec pool
  refine ⟨⟨final.picks, result, ⟨rounds, final, stops, bound, rfl⟩, sound.nodup, sound.picks_valid,
    fun room f member => sound.covers stops.stopped room member⟩, sorted, members,
    fun api config room f => ?_⟩
  -- selection through `Api.select` draws with the generator seeded by the settings
  obtain ⟨_, final', stops', -, sound', result'⟩ := perFunctionPickWith_run Twister.upTo_le
    config.maxSequences pool (Api.poolFunctions pool) (Twister.seed config.seed)
  show (∃ q ∈ perFunctionPick config pool (Api.poolFunctions pool), f ∈ q.covered) ↔ _
  rw [perFunctionPick, result']
  constructor
  · rintro ⟨q, picked, called⟩
    obtain ⟨i, member, rfl⟩ := List.mem_map.mp picked
    exact ⟨i, (sound'.picks_valid i member).1, called⟩
  · intro pooled
    obtain ⟨i, picked, called⟩ :=
      sound'.covers stops'.stopped room ((members f).mpr pooled) pooled
    exact ⟨pool.getD i {}, List.mem_map_of_mem picked, called⟩

/-- The generator draws within its range, and the pool of the breadth-first search over
`chainCatalog` calls few enough functions for the default limit, so selecting from it per
function calls every function the pool calls. -/
theorem chainBfs_perFunctionRandom_covers :
    (∀ g n, (Twister.upTo g n).1 ≤ n) ∧
      (Api.poolFunctions chainBfs.pool).length ≤ ({} : SelectConfig).maxSequences ∧
      ∀ f, (∃ q ∈ ((Api.ofCatalog chainCatalog).select {} chainBfs.pool .perFunctionRandom).1,
          f ∈ q.covered) ↔ ∃ i < chainBfs.pool.size, f ∈ (chainBfs.pool.getD i {}).covered := by
  have fits : (Api.poolFunctions chainBfs.pool).length ≤ ({} : SelectConfig).maxSequences := by
    decide +kernel
  obtain ⟨-, -, -, selects⟩ := perFunctionRandom_covers Twister.upTo_le 1000 chainBfs.pool
    (Api.poolFunctions chainBfs.pool) (Twister.seed 0)
  exact ⟨Twister.upTo_le, fits, selects (Api.ofCatalog chainCatalog) {} fits⟩

end DriverSynth
