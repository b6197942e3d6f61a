import DriverSynth.Proofs.Constructible
import DriverSynth.Proofs.GraphIndex
import Mathlib

/-! # The constructible functions are a least fixpoint

The constructible functions are the least set closed under the rule of building backwards
(`Api.Builds`, `Api.buildRule`), whatever order the passes mark them in
(`Api.constructible_least_fixpoint`). A pass marks only what the rule builds from the marks so far,
so it stays inside every closed set (`Api.constructiblePass_subset`); a pass that marks nothing
leaves a closed set (`Api.constructiblePass_idle`); and a pass that marks something marks a new
function (`Api.constructiblePass_grows`), so the passes stop (`Api.passes_stop`).
-/

namespace DriverSynth

namespace Graph

/-- A function with an edge into a consumer is among the consumer's producers. -/
theorem mem_producersOf_of_between {g : Graph} {p c k : Nat} (linked : g.between p c k ≠ []) :
    p ∈ g.producersOf c := by
  obtain ⟨id, member⟩ := List.exists_mem_of_ne_nil _ linked
  obtain ⟨-, triple, into⟩ := mem_between member
  unfold producersOf
  rw [← Array.foldl_toList, mem_foldl_insertSorted]
  exact Or.inr ⟨id, into, congrArg Prod.fst triple⟩

end Graph

/-- The functions marked in an array of flags. -/
def markedSet (known : Array Bool) : Set Nat := {f | known.getD f false = true}

@[simp] theorem mem_markedSet {known : Array Bool} {f : Nat} :
    f ∈ markedSet known ↔ known.getD f false = true := Iff.rfl

namespace Api

variable {api : Api}

/-- `f` is built backwards from the functions in `C`: it is a function of the catalog, not
generic, none of its parameters is unencodable, and each parameter that is not fuzzable has an
edge from a function of `C` other than `f`. -/
structure Builds (api : Api) (C : Set Nat) (f : Nat) : Prop where
  lt_size : f < api.size
  plain : (api.catalog.sig f).kind ≠ .generic
  encodable : api.Encodable f
  fed : ∀ k < (api.catalog.sig f).params.length, (api.paramClass f k).kind = .notFuzzable →
    ∃ p ∈ C, p ≠ f ∧ api.graph.between p f k ≠ []

theorem Builds.mono {C D : Set Nat} (sub : C ⊆ D) {f : Nat} (builds : api.Builds C f) :
    api.Builds D f where
  lt_size := builds.lt_size
  plain := builds.plain
  encodable := builds.encodable
  fed k below notFuzzable := by
    obtain ⟨p, member, other, linked⟩ := builds.fed k below notFuzzable
    exact ⟨p, sub member, other, linked⟩

/-- The functions built from a set, as a monotone map on sets of functions. -/
def buildRule (api : Api) : Set Nat →o Set Nat where
  toFun C := {f | api.Builds C f}
  monotone' _ _ sub _ builds := builds.mono sub

@[simp] theorem mem_buildRule {C : Set Nat} {f : Nat} : f ∈ api.buildRule C ↔ api.Builds C f :=
  Iff.rfl

/-- For a function of the catalog that is not generic, `satisfiable` decides the rule over the
marked functions. -/
theorem satisfiable_iff_builds {known : Array Bool} {f : Nat} (bound : f < api.size)
    (plain : (api.catalog.sig f).kind ≠ .generic) :
    api.satisfiable known f = true ↔ api.Builds (markedSet known) f := by
  constructor
  · intro sat
    refine ⟨bound, plain, encodable_of_satisfiable sat, fun k below notFuzzable => ?_⟩
    obtain ⟨p, other, producer, linked⟩ := satisfiable_fed sat below notFuzzable
    exact ⟨p, producer, other, linked⟩
  · intro builds
    refine List.all_eq_true.mpr fun k member => ?_
    have below := List.mem_range.mp member
    dsimp only
    cases kind : (api.paramClass f k).kind with
    | unencodable => exact absurd kind (builds.encodable k below)
    | fixed | «variable» => rfl
    | notFuzzable =>
      -- the producer the rule names has an edge into `f`, so `producersOf` lists it
      obtain ⟨p, producer, other, linked⟩ := builds.fed k below kind
      refine List.any_eq_true.mpr ⟨p, Graph.mem_producersOf_of_between linked, ?_⟩
      simp only [mem_markedSet] at producer
      simp [other, producer, linked]

/-- A pass marks only what the rule builds from the marks it has: marks inside a set closed under
the rule stay inside it. -/
theorem constructiblePass_subset {C : Set Nat} (closed : api.buildRule C ⊆ C)
    {known : Array Bool} (inside : markedSet known ⊆ C) :
    markedSet (api.constructiblePass known).1 ⊆ C := by
  unfold constructiblePass
  refine foldl_invariant (fun st : Array Bool × Bool => markedSet st.1 ⊆ C) inside ?_ rfl
  rintro ⟨known', changed⟩ f member inside'
  dsimp only at inside' ⊢
  split
  · exact inside'
  rename_i unmarked
  simp only [Bool.or_eq_true, beq_iff_eq, not_or, Bool.not_eq_true] at unmarked
  split
  · -- the new mark is built from the marks so far, which lie inside `C`
    rename_i sat
    have builds := (satisfiable_iff_builds (List.mem_range.mp member) unmarked.2).mp sat
    intro g marked
    rw [mem_markedSet, getD_setIfInBounds] at marked
    split at marked
    · rename_i same
      rw [← same.1]
      exact closed (builds.mono inside')
    · exact inside' marked
  · exact inside'

theorem constructibleFrom_subset {C : Set Nat} (closed : api.buildRule C ⊆ C) :
    ∀ (fuel : Nat) {known : Array Bool}, markedSet known ⊆ C →
      markedSet (api.constructibleFrom fuel known) ⊆ C
  | 0, _, inside => inside
  | fuel + 1, known, inside => by
    have pass := constructiblePass_subset closed inside
    rw [constructibleFrom]
    generalize api.constructiblePass known = result at pass ⊢
    obtain ⟨known', changed⟩ := result
    dsimp only at pass ⊢
    split
    · exact constructibleFrom_subset closed fuel pass
    · exact pass

/-- The constructible functions lie inside every set closed under the rule. -/
theorem constructible_subset {C : Set Nat} (closed : api.buildRule C ⊆ C) :
    markedSet api.constructible ⊆ C :=
  constructibleFrom_subset closed (api.size + 1) fun f marked => by
    rw [mem_markedSet, getD_replicate_false] at marked
    cases marked

/-- A pass that marks nothing leaves the marks as they were, having found every unmarked
function of the catalog that is not generic unsatisfiable. -/
theorem constructiblePass_idle {known : Array Bool}
    (idle : (api.constructiblePass known).2 = false) :
    (api.constructiblePass known).1 = known ∧
      ∀ f < api.size, known.getD f false = false → (api.catalog.sig f).kind ≠ .generic →
        api.satisfiable known f = false := by
  unfold constructiblePass at idle ⊢
  -- while nothing is marked the marks are `known`, and each function passed was found stuck
  refine foldl_range_invariant (fun m (st : Array Bool × Bool) => st.2 = false →
      st.1 = known ∧ ∀ f < m, known.getD f false = false →
        (api.catalog.sig f).kind ≠ .generic → api.satisfiable known f = false)
    (fun _ => ⟨rfl, fun f below => absurd below (Nat.not_lt_zero f)⟩) ?_ rfl idle
  rintro m ⟨known', changed⟩ _ stuck
  dsimp only at stuck ⊢
  split
  · rename_i skipped
    intro unchanged
    obtain ⟨rfl, earlier⟩ := stuck unchanged
    refine ⟨rfl, fun f below unmarked plain => ?_⟩
    rcases Nat.lt_succ_iff_lt_or_eq.mp below with before | rfl
    · exact earlier f before unmarked plain
    · simp [unmarked, plain] at skipped
  split
  · intro marked
    cases marked
  · rename_i unsat
    intro unchanged
    obtain ⟨rfl, earlier⟩ := stuck unchanged
    refine ⟨rfl, fun f below unmarked plain => ?_⟩
    rcases Nat.lt_succ_iff_lt_or_eq.mp below with before | rfl
    · exact earlier f before unmarked plain
    · simpa using unsat

/-- A pass keeps every mark, and a pass that reports a mark has marked a function of the catalog
that was unmarked. -/
theorem constructiblePass_grows {known : Array Bool} (sized : known.size = api.size) :
    markedSet known ⊆ markedSet (api.constructiblePass known).1 ∧
      ((api.constructiblePass known).2 = true →
        ∃ f < api.size, known.getD f false = false ∧
          (api.constructiblePass known).1.getD f false = true) := by
  unfold constructiblePass
  refine foldl_invariant (fun st : Array Bool × Bool =>
      st.1.size = api.size ∧ markedSet known ⊆ markedSet st.1 ∧
        (st.2 = true → ∃ f < api.size, known.getD f false = false ∧ st.1.getD f false = true))
    ⟨sized, fun _ marked => marked, fun reported => by cases reported⟩ ?_ rfl |>.2
  rintro ⟨known', changed⟩ f member ⟨sized', keeps, fresh⟩
  dsimp only at sized' keeps fresh ⊢
  split
  · exact ⟨sized', keeps, fresh⟩
  rename_i unmarked
  simp only [Bool.or_eq_true, beq_iff_eq, not_or, Bool.not_eq_true] at unmarked
  split
  · -- `f` is a function of the catalog, so the flag it sets is in bounds
    have bound := List.mem_range.mp member
    have set : (known'.setIfInBounds f true).getD f false = true := by
      rw [getD_setIfInBounds, if_pos ⟨rfl, by omega⟩]
    dsimp only
    refine ⟨by rw [Array.size_setIfInBounds, sized'], fun g marked => ?_, fun _ => ?_⟩
    · have kept : known'.getD g false = true := keeps marked
      rw [mem_markedSet, getD_setIfInBounds]
      split
      · rfl
      · exact kept
    · -- `f` was unmarked in `known'`, which holds every mark of `known`
      refine ⟨f, bound, ?_, set⟩
      cases before : known.getD f false with
      | false => rfl
      | true =>
        have still : known'.getD f false = true := keeps before
        rw [unmarked.1] at still
        cases still
  · exact ⟨sized', keeps, fresh⟩

/-- The number of functions of the catalog that an array marks. -/
def markCount (api : Api) (known : Array Bool) : Nat :=
  ((Finset.range api.size).filter fun f => known.getD f false = true).card

theorem markCount_le_size (known : Array Bool) : api.markCount known ≤ api.size := by
  unfold markCount
  calc ((Finset.range api.size).filter fun f => known.getD f false = true).card
      ≤ (Finset.range api.size).card := Finset.card_filter_le _ _
    _ = api.size := Finset.card_range _

/-- A pass that reports a mark marks more functions of the catalog than there were. -/
theorem markCount_lt_of_changed {known : Array Bool} (sized : known.size = api.size)
    (changed : (api.constructiblePass known).2 = true) :
    api.markCount known < api.markCount (api.constructiblePass known).1 := by
  obtain ⟨keeps, fresh⟩ := constructiblePass_grows sized
  obtain ⟨f, bound, unmarked, marked⟩ := fresh changed
  unfold markCount
  apply Finset.card_lt_card
  refine (Finset.ssubset_iff_of_subset fun g member => ?_).mpr ⟨f, ?_, ?_⟩
  · simp only [Finset.mem_filter] at member ⊢
    exact ⟨member.1, keeps member.2⟩
  · exact Finset.mem_filter.mpr ⟨Finset.mem_range.mpr bound, marked⟩
  · intro member
    have wasMarked := (Finset.mem_filter.mp member).2
    rw [unmarked] at wasMarked
    cases wasMarked

/-- The marks after `n` passes from none, whether or not the passes marked anything. -/
def marksAfter (api : Api) (n : Nat) : Array Bool :=
  (fun known => (api.constructiblePass known).1)^[n] (Array.replicate api.size false)

theorem marksAfter_succ (n : Nat) :
    api.marksAfter (n + 1) = (api.constructiblePass (api.marksAfter n)).1 :=
  Function.iterate_succ_apply' _ _ _

theorem size_marksAfter : ∀ n, (api.marksAfter n).size = api.size
  | 0 => Array.size_replicate
  | n + 1 => by rw [marksAfter_succ, size_constructiblePass, size_marksAfter n]

/-- Each of the first `n` passes that reports a mark adds one: they mark at least `n`
functions. -/
theorem le_markCount_marksAfter :
    ∀ n, (∀ i < n, (api.constructiblePass (api.marksAfter i)).2 = true) →
      n ≤ api.markCount (api.marksAfter n)
  | 0, _ => Nat.zero_le _
  | n + 1, changing => by
    have earlier := le_markCount_marksAfter n fun i below => changing i (Nat.lt_succ_of_lt below)
    have grows := markCount_lt_of_changed (size_marksAfter n) (changing n (Nat.lt_succ_self n))
    rw [marksAfter_succ]
    omega

/-- The passes stop: some pass among the first `api.size + 1` marks nothing, and every pass
before the first such one marks something. -/
theorem passes_stop : ∃ n ≤ api.size,
    (∀ i < n, (api.constructiblePass (api.marksAfter i)).2 = true) ∧
      (api.constructiblePass (api.marksAfter n)).2 = false := by
  -- were the first `api.size + 1` passes all to mark something, they would mark more functions
  -- than the catalog has
  have idle : ∃ n, n ≤ api.size ∧ (api.constructiblePass (api.marksAfter n)).2 = false := by
    refine Classical.byContradiction fun busy => ?_
    have changing : ∀ i < api.size + 1, (api.constructiblePass (api.marksAfter i)).2 = true :=
      fun i below => by
        simpa using fun stops => busy ⟨i, Nat.lt_succ_iff.mp below, stops⟩
    have many := le_markCount_marksAfter (api.size + 1) changing
    have few := @markCount_le_size api (api.marksAfter (api.size + 1))
    omega
  refine ⟨Nat.find idle, (Nat.find_spec idle).1, fun i below => ?_, (Nat.find_spec idle).2⟩
  have earlier := Nat.find_min idle below
  simp only [not_and, Bool.not_eq_false] at earlier
  exact earlier (Nat.le_trans (Nat.le_of_lt below) (Nat.find_spec idle).1)

/-- The loop runs the passes until the first that marks nothing, and returns its marks. -/
theorem constructibleFrom_marksAfter {n : Nat}
    (changing : ∀ i < n, (api.constructiblePass (api.marksAfter i)).2 = true)
    (idle : (api.constructiblePass (api.marksAfter n)).2 = false) :
    ∀ fuel i, i ≤ n → n - i < fuel →
      api.constructibleFrom fuel (api.marksAfter i) = api.marksAfter n
  | 0, _, _, enough => absurd enough (Nat.not_lt_zero _)
  | fuel + 1, i, below, enough => by
    rw [constructibleFrom]
    rcases Nat.lt_or_eq_of_le below with before | rfl
    · have pass : api.constructiblePass (api.marksAfter i) = (api.marksAfter (i + 1), true) := by
        rw [marksAfter_succ]
        exact Prod.ext rfl (changing i before)
      rw [pass]
      exact constructibleFrom_marksAfter changing idle fuel (i + 1) before (by omega)
    · have pass : api.constructiblePass (api.marksAfter i) = (api.marksAfter i, false) :=
        Prod.ext (constructiblePass_idle idle).1 idle
      rw [pass]
      rfl

/-- With enough fuel for every pass that marks something, the loop returns the marks of the
first pass that marks nothing. -/
theorem constructible_eq_marksAfter {n : Nat} (bound : n ≤ api.size)
    (changing : ∀ i < n, (api.constructiblePass (api.marksAfter i)).2 = true)
    (idle : (api.constructiblePass (api.marksAfter n)).2 = false) :
    api.constructible = api.marksAfter n :=
  constructibleFrom_marksAfter changing idle (api.size + 1) 0 (Nat.zero_le _) (by omega)

/-- The constructible functions are closed under the rule. -/
theorem buildRule_constructible_subset :
    api.buildRule (markedSet api.constructible) ⊆ markedSet api.constructible := by
  obtain ⟨n, bound, changing, idle⟩ := @passes_stop api
  rw [constructible_eq_marksAfter bound changing idle]
  intro f builds
  rw [mem_buildRule] at builds
  cases marked : (api.marksAfter n).getD f false with
  | true => exact marked
  | false =>
    -- the last pass found `f` unsatisfiable, yet the rule builds it from those marks
    have sat := (satisfiable_iff_builds builds.lt_size builds.plain).mpr builds
    rw [(constructiblePass_idle idle).2 f builds.lt_size marked builds.plain] at sat
    cases sat

/-- The passes compute the least set closed under the rule, whatever order they mark in, and stop
after at most one pass more than there are functions. -/
theorem constructible_least_fixpoint :
    (∀ f, api.constructible.getD f false = true ↔ f ∈ OrderHom.lfp api.buildRule) ∧
      ∃ n ≤ api.size, (∀ i < n, (api.constructiblePass (api.marksAfter i)).2 = true) ∧
        (api.constructiblePass (api.marksAfter n)).2 = false ∧
        api.marksAfter n = api.constructible := by
  obtain ⟨n, bound, changing, idle⟩ := @passes_stop api
  refine ⟨fun f => ⟨fun marked => ?_, fun least => ?_⟩, n, bound, changing, idle,
    (constructible_eq_marksAfter bound changing idle).symm⟩
  · -- the least fixpoint is closed under the rule, so it holds every constructible function
    exact constructible_subset (OrderHom.map_lfp api.buildRule).le marked
  · exact OrderHom.lfp_le api.buildRule buildRule_constructible_subset least

end Api

end DriverSynth
