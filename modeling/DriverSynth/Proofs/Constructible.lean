import DriverSynth.Search.Reverse

/-! # Ranks of constructible functions

The passes that find the constructible functions mark a function once every parameter that is
not fuzzable has an edge from a function marked before it, and never unmark one. Numbering the
marks in the order they are made ranks the constructible functions so that each is built from
constructible functions of lower rank (`Api.constructible_ranked`); an induction on that rank is
what shows reverse construction complete. That every constructible function is encodable
(`Api.constructible_marks`) and of the catalog (`Api.lt_size_of_constructible`) follows.

The module starts with the two fold invariants that the proofs about passes, searches and
assembly all go through.
-/

namespace DriverSynth

-- A property that each step of a fold keeps holds of its result.
theorem foldl_invariant {α β : Type} {f : α → β → α} (P : α → Prop) {l : List β}
    {init result : α} (start : P init) (step : ∀ a x, x ∈ l → P a → P (f a x))
    (run : l.foldl f init = result) : P result := by
  subst run
  induction l generalizing init with
  | nil => exact start
  | cons x rest ih =>
    exact ih (step init x List.mem_cons_self start)
      (fun a y member => step a y (List.mem_cons_of_mem _ member))

-- A fold's invariant indexed by the items done so far.
theorem foldl_prefix_invariant {α β : Type} {f : α → β → α} (P : List β → α → Prop)
    {l : List β} {init result : α} (start : P [] init)
    (step : ∀ done x rest a, done ++ x :: rest = l → P done a → P (done ++ [x]) (f a x))
    (run : l.foldl f init = result) : P l result := by
  subst run
  suffices going : ∀ rest done a, done ++ rest = l → P done a → P l (rest.foldl f a) from
    going l [] init rfl start
  intro rest
  induction rest with
  | nil => intro done a split holds; simpa [← split] using holds
  | cons x rest ih =>
    intro done a split holds
    exact ih (done ++ [x]) (f a x) (by simp [← split]) (step done x rest a split holds)

-- The same over the first `n` numbers, with the invariant indexed by the numbers done.
theorem foldl_range_invariant {α : Type} {f : α → Nat → α} (P : Nat → α → Prop) {n : Nat}
    {init result : α} (start : P 0 init) (step : ∀ k a, k < n → P k a → P (k + 1) (f a k))
    (run : (List.range n).foldl f init = result) : P n result := by
  subst run
  induction n with
  | zero => exact start
  | succ n ih =>
    rw [List.range_succ, List.foldl_append, List.foldl_cons, List.foldl_nil]
    exact step n _ (Nat.lt_succ_self n) (ih fun k a lt => step k a (Nat.lt_succ_of_lt lt))

-- Nothing is marked in a fresh array of flags.
theorem getD_replicate_false (n i : Nat) : (Array.replicate n false).getD i false = false := by
  simp only [Array.getD_eq_getD_getElem?, Array.getElem?_replicate]
  split <;> rfl

theorem getD_setIfInBounds {α : Type} (xs : Array α) (i j : Nat) (v d : α) :
    (xs.setIfInBounds i v).getD j d = if i = j ∧ i < xs.size then v else xs.getD j d := by
  rw [Array.getD_eq_getD_getElem?, Array.getElem?_setIfInBounds, Array.getD_eq_getD_getElem?]
  by_cases same : i = j
  · subst same
    by_cases bound : i < xs.size
    · simp [bound]
    · simp [bound]
  · simp [same]

namespace Api

variable {api : Api}

/-- Every parameter of `f` is decodable from fuzz bytes or made by a call. -/
def Encodable (api : Api) (f : Nat) : Prop :=
  ∀ k < (api.catalog.sig f).params.length, (api.paramClass f k).kind ≠ .unencodable

/-- The functions marked in `known` are encodable. -/
def MarksEncodable (api : Api) (known : Array Bool) : Prop :=
  ∀ f, known.getD f false = true → api.Encodable f

theorem encodable_of_satisfiable {known : Array Bool} {f : Nat}
    (sat : api.satisfiable known f = true) : api.Encodable f := by
  intro k bound unencodable
  have each := List.all_eq_true.mp sat k (List.mem_range.mpr bound)
  dsimp only at each
  rw [unencodable] at each
  cases each

/-- `f` is built from functions that `known` holds and `rank` puts below it: it is not generic,
no parameter is unencodable, and each parameter that is not fuzzable has an edge from such a
function other than `f`. -/
structure Justified (api : Api) (known : Nat → Prop) (rank : Nat → Nat) (f : Nat) : Prop where
  plain : (api.catalog.sig f).kind ≠ .generic
  encodable : api.Encodable f
  fed : ∀ k < (api.catalog.sig f).params.length, (api.paramClass f k).kind = .notFuzzable →
    ∃ p, p ≠ f ∧ known p ∧ rank p < rank f ∧ api.graph.between p f k ≠ []

/-- Marks ranked below `bound`, each justified by marks of lower rank. -/
def RankedMarks (api : Api) (known : Array Bool) (rank : Nat → Nat) (bound : Nat) : Prop :=
  ∀ f, known.getD f false = true →
    rank f < bound ∧ api.Justified (fun p => known.getD p false = true) rank f

/-- A satisfiable function has, for each parameter that is not fuzzable, an edge from a marked
function other than itself. -/
theorem satisfiable_fed {known : Array Bool} {f : Nat} (sat : api.satisfiable known f = true)
    {k : Nat} (bound : k < (api.catalog.sig f).params.length)
    (notFuzzable : (api.paramClass f k).kind = .notFuzzable) :
    ∃ p, p ≠ f ∧ known.getD p false = true ∧ api.graph.between p f k ≠ [] := by
  have each := List.all_eq_true.mp sat k (List.mem_range.mpr bound)
  dsimp only at each
  rw [notFuzzable] at each
  obtain ⟨p, -, chosen⟩ := List.any_eq_true.mp each
  simp only [Bool.and_eq_true, bne_iff_ne, ne_eq, Bool.not_eq_true', List.isEmpty_eq_false_iff]
    at chosen
  exact ⟨p, chosen.1.1, chosen.1.2, chosen.2⟩

/-- Marking an unmarked satisfiable function that is not generic, with the next rank, keeps the
marks ranked. -/
theorem RankedMarks.mark {known : Array Bool} {rank : Nat → Nat} {bound : Nat}
    (ranked : api.RankedMarks known rank bound) {f : Nat} (fresh : known.getD f false = false)
    (plain : (api.catalog.sig f).kind ≠ .generic) (sat : api.satisfiable known f = true) :
    api.RankedMarks (known.setIfInBounds f true) (fun g => if g = f then bound else rank g)
      (bound + 1) := by
  -- a function marked before is not `f`, and keeps its rank
  have old : ∀ g, known.getD g false = true → g ≠ f := by
    rintro g marked rfl
    rw [fresh] at marked
    cases marked
  have grown : ∀ g, known.getD g false = true →
      (known.setIfInBounds f true).getD g false = true := by
    intro g marked
    rw [getD_setIfInBounds]
    split
    · rfl
    · exact marked
  intro g marked
  rw [getD_setIfInBounds] at marked
  split at marked
  · -- the new mark: its producers were marked before, with ranks below `bound`
    rename_i same
    obtain ⟨rfl, -⟩ := same
    refine ⟨by simp, plain, encodable_of_satisfiable sat, ?_⟩
    intro k bound' notFuzzable
    obtain ⟨p, other, producer, between⟩ := satisfiable_fed sat bound' notFuzzable
    refine ⟨p, other, grown p producer, ?_, between⟩
    simp only [if_neg other]
    exact (ranked p producer).1
  · obtain ⟨below, justified⟩ := ranked g marked
    refine ⟨by simp only [if_neg (old g marked)]; omega, justified.plain, justified.encodable, ?_⟩
    intro k bound' notFuzzable
    obtain ⟨p, other, producer, lower, between⟩ := justified.fed k bound' notFuzzable
    refine ⟨p, other, grown p producer, ?_, between⟩
    simp only [if_neg (old g marked), if_neg (old p producer)]
    exact lower

/-- A pass keeps the marks ranked. -/
theorem constructiblePass_ranked {known : Array Bool} {rank : Nat → Nat} {bound : Nat}
    (ranked : api.RankedMarks known rank bound) :
    ∃ rank bound, api.RankedMarks (api.constructiblePass known).1 rank bound := by
  unfold constructiblePass
  refine foldl_invariant
    (fun (st : Array Bool × Bool) => ∃ rank bound, api.RankedMarks st.1 rank bound)
    ⟨rank, bound, ranked⟩ ?_ rfl
  rintro ⟨known', changed⟩ f _ ⟨rank', bound', ranked'⟩
  dsimp only
  split
  · exact ⟨rank', bound', ranked'⟩
  · rename_i unmarked
    simp only [Bool.or_eq_true, beq_iff_eq, not_or, Bool.not_eq_true] at unmarked
    split
    · rename_i sat
      exact ⟨_, _, ranked'.mark unmarked.1 unmarked.2 sat⟩
    · exact ⟨rank', bound', ranked'⟩

theorem constructibleFrom_ranked :
    ∀ (fuel : Nat) {known : Array Bool} {rank : Nat → Nat} {bound : Nat},
      api.RankedMarks known rank bound →
      ∃ rank bound, api.RankedMarks (api.constructibleFrom fuel known) rank bound
  | 0, _, rank, bound, ranked => ⟨rank, bound, ranked⟩
  | fuel + 1, known, _, _, ranked => by
    obtain ⟨rank', bound', pass⟩ := constructiblePass_ranked ranked
    rw [constructibleFrom]
    generalize api.constructiblePass known = result at pass ⊢
    obtain ⟨known', changed⟩ := result
    dsimp only
    split
    · exact constructibleFrom_ranked fuel pass
    · exact ⟨rank', bound', pass⟩

/-- The constructible functions can be ranked so that each is built from constructible functions
of lower rank. -/
theorem constructible_ranked :
    ∃ rank : Nat → Nat, ∀ f, api.constructible.getD f false = true →
      api.Justified (fun p => api.constructible.getD p false = true) rank f := by
  have start : api.RankedMarks (Array.replicate api.size false) (fun _ => 0) 0 := by
    intro f marked
    rw [Array.getD_eq_getD_getElem?, Array.getElem?_replicate] at marked
    split at marked <;> simp at marked
  obtain ⟨rank, bound, ranked⟩ := constructibleFrom_ranked (api.size + 1) start
  exact ⟨rank, fun f marked => (ranked f marked).2⟩

theorem size_constructiblePass (known : Array Bool) :
    (api.constructiblePass known).1.size = known.size := by
  unfold constructiblePass
  refine foldl_invariant (fun st : Array Bool × Bool => st.1.size = known.size) rfl ?_ rfl
  rintro ⟨known', changed⟩ f _ sized
  dsimp only at sized ⊢
  split
  · exact sized
  · split
    · rw [Array.size_setIfInBounds]
      exact sized
    · exact sized

theorem size_constructibleFrom : ∀ (fuel : Nat) (known : Array Bool),
    (api.constructibleFrom fuel known).size = known.size
  | 0, _ => rfl
  | fuel + 1, known => by
    rw [constructibleFrom]
    have sized := @size_constructiblePass api known
    generalize api.constructiblePass known = result at sized ⊢
    obtain ⟨known', changed⟩ := result
    dsimp only at sized ⊢
    split
    · rw [size_constructibleFrom fuel known', sized]
    · exact sized

/-- A constructible function is a function of the catalog. -/
theorem lt_size_of_constructible {f : Nat} (marked : api.constructible.getD f false = true) :
    f < api.size := by
  have sized : api.constructible.size = api.size := by
    rw [constructible, size_constructibleFrom, Array.size_replicate]
  rw [← sized]
  rcases Nat.lt_or_ge f api.constructible.size with inside | outside
  · exact inside
  · rw [Array.getD_eq_getD_getElem?, Array.getElem?_eq_none outside] at marked
    cases marked

/-- The constructible functions are encodable. -/
theorem constructible_marks : api.MarksEncodable api.constructible := by
  obtain ⟨rank, ranked⟩ := @constructible_ranked api
  exact fun f marked => (ranked f marked).encodable

end Api

end DriverSynth
