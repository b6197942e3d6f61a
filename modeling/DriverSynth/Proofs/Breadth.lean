import DriverSynth.Proofs.Ending

/-! # Breadth-first search enumerates the admissible call lists

Breadth-first search grows its pool one length at a time, by the admitted extensions of the
unended pooled sequences of the current length. Run without skipping from an empty pool, it pushes
exactly the layers `Api.layer` up to its length (`Search.bfs_exhaustive`): a layer holds one
sequence for each list of functions that admission builds, with only the last call of an end
function (`Api.mem_layer_fns`, `Api.layer_pairwise`), and the visited marks are the pooled
sequences' last functions (`Search.Marked`). Deep breadth-first search pushes some of the same
layers. Main statement: `Search.bfs_enumerates`.
-/

namespace DriverSynth

@[simp] theorem Sequence.length_fns (q : Sequence) : q.fns.length = q.size := by
  simp [Sequence.fns, Sequence.size]

namespace Api

variable {api : Api} {stopAtEnd : Bool}

/-- The admitted extensions of a sequence by one call, function by function. -/
def extensions (api : Api) (q : Sequence) : List Sequence :=
  (List.range api.size).filterMap (api.extend? 0 q)

/-- Layer `n` of breadth-first search: the empty sequence, then the extensions of the sequences
of the layer before, but for those ended by an end function when the search stops there. -/
def layer (api : Api) (stopAtEnd : Bool) : Nat → List Sequence
  | 0 => [{}]
  | n + 1 => ((api.layer stopAtEnd n).filter fun q => !(stopAtEnd && api.isEnded q)).flatMap
      api.extensions

/-- Layers `0` to `n`, one after the other. -/
def layers (api : Api) (stopAtEnd : Bool) (n : Nat) : List Sequence :=
  (List.range (n + 1)).flatMap (api.layer stopAtEnd)

/-- A list of functions of the API that admission builds one call at a time from the empty
sequence; when the search stops at end functions, only its last call may be of one. -/
def Admissible (api : Api) (stopAtEnd : Bool) (w : List Nat) : Prop :=
  (∀ f ∈ w, f < api.size) ∧ (api.replay? w).isSome ∧
    (stopAtEnd = true → ∀ f ∈ w.dropLast, api.catalog.isEnd f = false)

instance (api : Api) (stopAtEnd : Bool) (w : List Nat) :
    Decidable (api.Admissible stopAtEnd w) :=
  inferInstanceAs (Decidable (_ ∧ _ ∧ _))

/-- Admitting a call of `f` appends `f` to the functions. -/
theorem extend?_fns {stamp f : Nat} {q e : Sequence} (extended : api.extend? stamp q f = some e) :
    e.fns = q.fns ++ [f] := by
  obtain ⟨args, produces, calls⟩ := extend?_calls extended
  simp [Sequence.fns, calls]

theorem mem_extensions {q e : Sequence} :
    e ∈ api.extensions q ↔ ∃ f < api.size, api.extend? 0 q f = some e := by
  simp [extensions]

/-- Functions in increasing order give extensions with different functions. -/
theorem extensions_pairwise (q : Sequence) :
    (api.extensions q).Pairwise fun a b => a.fns ≠ b.fns := by
  unfold extensions
  rw [List.pairwise_filterMap]
  refine (List.pairwise_lt_range).imp fun {f g} lower a extendedF b extendedG same => ?_
  rw [extend?_fns extendedF, extend?_fns extendedG, List.append_cancel_left_eq,
    List.singleton_inj] at same
  omega

theorem size_of_mem_layer : ∀ {n : Nat} {q : Sequence}, q ∈ api.layer stopAtEnd n → q.size = n
  | 0, q, member => by
    rw [layer, List.mem_singleton] at member
    subst member
    rfl
  | n + 1, e, member => by
    obtain ⟨q, kept, extension⟩ := List.mem_flatMap.mp member
    obtain ⟨f, -, extended⟩ := mem_extensions.mp extension
    rw [extend?_size extended, size_of_mem_layer (List.mem_filter.mp kept).1]

/-- A sequence of a layer is what admission builds from its functions. -/
theorem replay?_of_mem_layer : ∀ {n : Nat} {q : Sequence}, q ∈ api.layer stopAtEnd n →
    api.replay? q.fns = some q
  | 0, q, member => by
    rw [layer, List.mem_singleton] at member
    subst member
    rfl
  | n + 1, e, member => by
    obtain ⟨q, kept, extension⟩ := List.mem_flatMap.mp member
    obtain ⟨f, -, extended⟩ := mem_extensions.mp extension
    rw [extend?_fns extended, replay?_concat,
      replay?_of_mem_layer (List.mem_filter.mp kept).1, Option.bind_some, extended]

/-- A sequence that calls no end function is not ended. -/
theorem isEnded_eq_false {q : Sequence} (unended : q.Unended api.catalog) :
    api.isEnded q = false := by
  unfold isEnded
  rw [Sequence.lastFn?_eq_getLast?]
  cases last : q.fns.getLast? with
  | none => rfl
  | some f => exact unended f (List.mem_of_getLast? last)

/-- The function lists of a layer are the admissible lists of its length. -/
theorem mem_layer_fns : ∀ {n : Nat} {w : List Nat},
    w ∈ (api.layer stopAtEnd n).map Sequence.fns ↔ w.length = n ∧ api.Admissible stopAtEnd w
  | 0, w => by
    constructor
    · intro member
      simp only [layer, List.map_cons, List.map_nil, List.mem_singleton,
        Sequence.fns_empty] at member
      subst member
      exact ⟨rfl, by simp, rfl, by simp⟩
    · rintro ⟨empty, -⟩
      simp [layer, List.length_eq_zero_iff.mp empty]
  | n + 1, w => by
    constructor
    · intro member
      obtain ⟨e, extension, rfl⟩ := List.mem_map.mp member
      obtain ⟨q, kept, extension⟩ := List.mem_flatMap.mp extension
      obtain ⟨f, bound, extended⟩ := mem_extensions.mp extension
      obtain ⟨pooled, going⟩ := List.mem_filter.mp kept
      obtain ⟨length, within, -, ends⟩ := mem_layer_fns.mp (List.mem_map_of_mem pooled)
      rw [extend?_fns extended]
      refine ⟨by simp [length], fun g called => ?_, ?_, fun stopping g early => ?_⟩
      · rcases List.mem_append.mp called with old | last
        · exact within g old
        · rw [List.mem_singleton.mp last]
          exact bound
      · rw [replay?_concat, replay?_of_mem_layer pooled, Option.bind_some, extended]
        rfl
      -- the extended sequence was not ended, so none of its calls is of an end function
      · simp only [stopping, Bool.true_and, Bool.not_eq_true'] at going
        rw [List.dropLast_concat] at early
        exact endsLast_unended (ends stopping) going g early
    · rintro ⟨length, within, replays, ends⟩
      have nonempty : w ≠ [] := by
        rintro rfl
        cases length
      obtain ⟨v, f, rfl⟩ : ∃ v f, w = v ++ [f] :=
        ⟨w.dropLast, w.getLast nonempty, (List.dropLast_concat_getLast nonempty).symm⟩
      rw [replay?_concat] at replays
      have prefixAdmissible : api.Admissible stopAtEnd v :=
        ⟨fun g called => within g (List.mem_append_left _ called),
          Option.isSome_of_isSome_bind replays, fun stopping g early =>
            ends stopping g (by rw [List.dropLast_concat]; exact List.dropLast_subset _ early)⟩
      obtain ⟨q, pooled, rfl⟩ := List.mem_map.mp
        (mem_layer_fns.mpr ⟨by simpa using length, prefixAdmissible⟩)
      rw [replay?_of_mem_layer pooled, Option.bind_some] at replays
      obtain ⟨e, extended⟩ := Option.isSome_iff_exists.mp replays
      -- the prefix calls no end function, so the search extends it
      have going : (!(stopAtEnd && api.isEnded q)) = true := by
        cases stopping : stopAtEnd
        · rfl
        · have unended : q.Unended api.catalog := fun g called =>
            ends stopping g (by rw [List.dropLast_concat]; exact called)
          simp [isEnded_eq_false unended]
      refine List.mem_map.mpr ⟨e, List.mem_flatMap.mpr ⟨q, List.mem_filter.mpr ⟨pooled, going⟩,
        mem_extensions.mpr ⟨f, within f (by simp), extended⟩⟩, extend?_fns extended⟩

/-- No two sequences of a layer call the same functions. -/
theorem layer_pairwise : ∀ n : Nat,
    (api.layer stopAtEnd n).Pairwise fun a b => a.fns ≠ b.fns
  | 0 => List.pairwise_singleton _ _
  | n + 1 => by
    rw [layer, List.pairwise_flatMap]
    refine ⟨fun q _ => extensions_pairwise q, ((layer_pairwise n).filter _).imp ?_⟩
    intro q₁ q₂ differ a extension₁ b extension₂ same
    obtain ⟨f, -, extended₁⟩ := mem_extensions.mp extension₁
    obtain ⟨g, -, extended₂⟩ := mem_extensions.mp extension₂
    rw [extend?_fns extended₁, extend?_fns extended₂] at same
    exact differ (List.append_inj_left' same rfl)

theorem lt_size_of_mem_layer {n : Nat} {q : Sequence} (member : q ∈ api.layer stopAtEnd n)
    {f : Nat} (called : f ∈ q.fns) : f < api.size :=
  (mem_layer_fns.mp (List.mem_map_of_mem member)).2.1 f called

theorem layers_succ (n : Nat) :
    api.layers stopAtEnd (n + 1) = api.layers stopAtEnd n ++ api.layer stopAtEnd (n + 1) := by
  rw [layers, List.range_succ, List.flatMap_append, List.flatMap_singleton]
  rfl

theorem layers_sublist (n : Nat) :
    ∀ k, (api.layers stopAtEnd n).Sublist (api.layers stopAtEnd (n + k))
  | 0 => List.Sublist.refl _
  | k + 1 => by
    rw [← Nat.add_assoc, layers_succ]
    exact (layers_sublist n k).trans (List.sublist_append_left _ _)

theorem mem_layers {n : Nat} {q : Sequence} :
    q ∈ api.layers stopAtEnd n ↔ ∃ k ≤ n, q ∈ api.layer stopAtEnd k := by
  simp only [layers, List.mem_flatMap, List.mem_range, Nat.lt_add_one_iff]

/-- The function lists of the layers up to `n` are the admissible lists of at most `n`
functions. -/
theorem mem_layers_fns {n : Nat} {w : List Nat} :
    w ∈ (api.layers stopAtEnd n).map Sequence.fns ↔
      w.length ≤ n ∧ api.Admissible stopAtEnd w := by
  simp only [List.mem_map, mem_layers]
  constructor
  · rintro ⟨q, ⟨k, below, member⟩, rfl⟩
    obtain ⟨length, admissible⟩ := mem_layer_fns.mp (List.mem_map_of_mem member)
    exact ⟨by omega, admissible⟩
  · rintro ⟨short, admissible⟩
    obtain ⟨q, member, rfl⟩ := List.mem_map.mp
      (mem_layer_fns.mpr ⟨rfl, admissible⟩ : w ∈ (api.layer stopAtEnd w.length).map Sequence.fns)
    exact ⟨q, ⟨_, short, member⟩, rfl⟩

/-- The layers come in order of length, and no two of their sequences call the same
functions. -/
theorem layers_pairwise (n : Nat) :
    (api.layers stopAtEnd n).Pairwise fun a b => a.size ≤ b.size ∧ a.fns ≠ b.fns := by
  rw [layers, List.pairwise_flatMap]
  refine ⟨fun k _ => ?_, List.pairwise_lt_range.imp ?_⟩
  · refine (layer_pairwise k).imp_of_mem fun {a b} memberA memberB differ => ⟨?_, differ⟩
    exact Nat.le_of_eq ((size_of_mem_layer memberA).trans (size_of_mem_layer memberB).symm)
  · intro j k lower a memberA b memberB
    rw [← Sequence.length_fns, ← Sequence.length_fns] at *
    have lengthA := (mem_layer_fns.mp (List.mem_map_of_mem memberA)).1
    have lengthB := (mem_layer_fns.mp (List.mem_map_of_mem memberB)).1
    refine ⟨by omega, fun same => ?_⟩
    rw [same] at lengthA
    omega

/-- After an empty layer every layer is empty. -/
theorem layer_eq_nil {n : Nat} (empty : api.layer stopAtEnd n = []) :
    ∀ k, api.layer stopAtEnd (n + k) = []
  | 0 => empty
  | k + 1 => by simp [layer, layer_eq_nil empty k]

/-- After an empty layer the layers stay as they are. -/
theorem layers_of_layer_eq_nil {n : Nat} (empty : api.layer stopAtEnd n = []) :
    ∀ k, api.layers stopAtEnd (n + k) = api.layers stopAtEnd n
  | 0 => rfl
  | k + 1 => by
    rw [← Nat.add_assoc, layers_succ, layers_of_layer_eq_nil empty k, Nat.add_assoc,
      layer_eq_nil empty (k + 1), List.append_nil]

/-- The sequences of length `n` among the layers up to `n` are those of layer `n`. -/
theorem filter_layers (n : Nat) (p : Sequence → Bool) :
    (api.layers stopAtEnd n).filter (fun q => q.size == n && p q) =
      (api.layer stopAtEnd n).filter p := by
  have current : (api.layer stopAtEnd n).filter (fun q => q.size == n && p q) =
      (api.layer stopAtEnd n).filter p :=
    List.filter_congr fun q member => by simp [size_of_mem_layer member]
  cases n with
  | zero => simpa [layers] using current
  | succ m =>
    rw [layers_succ, List.filter_append, current, List.filter_eq_nil_iff.mpr, List.nil_append]
    intro q member
    obtain ⟨k, below, member⟩ := mem_layers.mp member
    simp [size_of_mem_layer member]
    omega

/-- A sequence of a layer ends in a function of the API. -/
theorem lastFn?_lt_of_mem_layer {n : Nat} {q : Sequence} (member : q ∈ api.layer stopAtEnd n)
    {f : Nat} (last : q.lastFn? = some f) : f < api.size := by
  rw [Sequence.lastFn?_eq_getLast?] at last
  exact lt_size_of_mem_layer member (List.mem_of_getLast? last)

end Api

namespace Search

variable {s : Search}

/-- Pushes sequences one after the other. -/
def pushAll (s : Search) (qs : List Sequence) : Search := qs.foldl push s

@[simp] theorem api_pushAll (qs : List Sequence) : (s.pushAll qs).api = s.api := by
  induction qs generalizing s with
  | nil => rfl
  | cons q rest ih => exact ih

theorem pool_pushAll (qs : List Sequence) :
    (s.pushAll qs).pool.toList = s.pool.toList ++ qs := by
  induction qs generalizing s with
  | nil => simp [pushAll]
  | cons q rest ih =>
    show ((s.push q).pushAll rest).pool.toList = _
    simp [ih, Search.push]

theorem pushAll_append (qs rs : List Sequence) : s.pushAll (qs ++ rs) = (s.pushAll qs).pushAll rs :=
  List.foldl_append

/-- The visited marks of a search are the last functions of its pooled sequences. -/
structure Marked (s : Search) : Prop where
  size_eq : s.visited.size = s.api.size
  visited_iff : ∀ f, s.visited.getD f false = true ↔ ∃ q ∈ s.pool.toList, q.lastFn? = some f

/-- Pushing a sequence that ends in a function of the API marks that function. -/
theorem Marked.push (marked : s.Marked) {q : Sequence}
    (within : ∀ f, q.lastFn? = some f → f < s.api.size) : (s.push q).Marked := by
  -- a sequence that ends in another function leaves the sequences ending in `f` as they were
  have others : ∀ f, q.lastFn? ≠ some f → ((∃ r ∈ s.pool.toList ++ [q], r.lastFn? = some f) ↔
      ∃ r ∈ s.pool.toList, r.lastFn? = some f) := by
    intro f other
    constructor
    · rintro ⟨r, pooled, ends⟩
      rcases List.mem_append.mp pooled with old | new
      · exact ⟨r, old, ends⟩
      · rw [List.mem_singleton.mp new] at ends
        exact absurd ends other
    · rintro ⟨r, pooled, ends⟩
      exact ⟨r, List.mem_append_left _ pooled, ends⟩
  unfold Search.push
  cases last : q.lastFn? with
  | none =>
    refine ⟨marked.size_eq, fun f => ?_⟩
    rw [Array.toList_push, others f (by simp [last]), marked.visited_iff f]
  | some g =>
    refine ⟨by simp [marked.size_eq], fun f => ?_⟩
    rw [Array.toList_push, getD_setIfInBounds, marked.size_eq]
    by_cases same : g = f
    · subst same
      simp only [within g last, and_self, ↓reduceIte, true_iff]
      exact ⟨q, List.mem_append_right _ (List.mem_singleton_self q), last⟩
    · rw [if_neg fun both => same both.1, others f (by simpa [last] using same),
        marked.visited_iff f]

theorem Marked.pushAll (marked : s.Marked) {qs : List Sequence}
    (within : ∀ q ∈ qs, ∀ f, q.lastFn? = some f → f < s.api.size) : (s.pushAll qs).Marked := by
  induction qs generalizing s with
  | nil => exact marked
  | cons q rest ih =>
    exact ih (marked.push (within q List.mem_cons_self))
      fun r member => within r (List.mem_cons_of_mem _ member)

/-- A round that does not skip pushes the extensions of the frontier, in order, and never
stops. -/
theorem extendLayer_exhaustive (s : Search) (frontier : List Sequence) :
    s.extendLayer false frontier = (s.pushAll (frontier.flatMap s.api.extensions), false) := by
  unfold extendLayer
  refine foldl_prefix_invariant
    (P := fun done st => st = (s.pushAll (done.flatMap s.api.extensions), false)) rfl ?_ rfl
  rintro done q - st - rfl
  dsimp only
  -- the functions tried on `q` so far have pushed its extensions by them
  refine (foldl_prefix_invariant (P := fun fs st =>
    st = ((s.pushAll (done.flatMap s.api.extensions)).pushAll
      (fs.filterMap (s.api.extend? 0 q)), false)) (by simp [pushAll]) ?_ rfl).trans ?_
  · rintro fs f - st - rfl
    simp only [Bool.false_or, Bool.false_and, Bool.false_eq_true, ↓reduceIte, api_pushAll,
      List.filterMap_append, List.filterMap_cons, List.filterMap_nil]
    split <;> rename_i found <;> simp [found, pushAll]
  · simp [pushAll_append, Api.extensions]

variable {api : Api} {stopAtEnd : Bool}

/-- From the layers up to `len`, the rounds that do not skip push the layers after it, up to
`len + fuel`, and keep the visited marks the last functions of the pool. -/
theorem bfsLayers_exhaustive : ∀ (fuel len : Nat) {s : Search}, s.api = api →
    s.pool.toList = api.layers stopAtEnd len → s.Marked →
    (s.bfsLayers stopAtEnd false fuel len).pool.toList = api.layers stopAtEnd (len + fuel) ∧
      (s.bfsLayers stopAtEnd false fuel len).Marked
  | 0, _, _, _, pool, marked => ⟨pool, marked⟩
  | fuel + 1, len, s, api_eq, pool, marked => by
    rw [bfsLayers]
    split
    · -- no pooled sequence has `len` calls: layer `len` is empty, and so is every layer after it
      rename_i short
      have empty : api.layer stopAtEnd len = [] := by
        rw [List.eq_nil_iff_forall_not_mem]
        intro q member
        rw [Array.all_eq_true_iff_forall_mem] at short
        have pooled : q ∈ s.pool.toList :=
          pool ▸ Api.mem_layers.mpr ⟨len, Nat.le_refl _, member⟩
        have below := of_decide_eq_true (short q (Array.mem_toList_iff.mp pooled))
        rw [Api.size_of_mem_layer member] at below
        exact Nat.lt_irrefl _ below
      exact ⟨by rw [pool, Api.layers_of_layer_eq_nil empty], marked⟩
    · -- the frontier is the unended part of layer `len`, and its extensions are the next layer
      have frontier : s.pool.toList.filter (fun q => q.size == len &&
          !(stopAtEnd && s.api.isEnded q)) =
          (api.layer stopAtEnd len).filter fun q => !(stopAtEnd && api.isEnded q) := by
        rw [pool, api_eq, Api.filter_layers]
      dsimp only
      rw [extendLayer_exhaustive, frontier, api_eq]
      simp only [Bool.false_eq_true, ↓reduceIte]
      rw [show len + (fuel + 1) = len + 1 + fuel by omega]
      refine bfsLayers_exhaustive fuel (len + 1) (by simp [api_eq]) ?_ ?_
      · rw [pool_pushAll, pool, Api.layers_succ]
        rfl
      · refine marked.pushAll fun q member f last => ?_
        rw [api_eq]
        exact Api.lastFn?_lt_of_mem_layer (n := len + 1) member last

/-- From an empty pool, breadth-first search to a positive length runs its layers from the
empty sequence alone, with nothing visited. -/
theorem bfs_of_empty (empty : s.pool = #[]) {maxLen : Nat} (positive : 1 ≤ maxLen)
    (stopAtEnd fast : Bool) :
    s.bfs maxLen stopAtEnd fast =
      ({ s.resetVisited with pool := #[{}] } : Search).bfsLayers stopAtEnd fast maxLen 0 := by
  unfold bfs
  have noEmpty : (s.resetVisited.pool.any fun q => q.size == 0) = false := by
    simp [resetVisited, empty]
  simp only [if_neg (Nat.not_lt.mpr positive), noEmpty, Bool.false_eq_true, ↓reduceIte]
  simp [resetVisited, empty]

/-- The empty sequence alone, with nothing visited, is marked. -/
theorem marked_start : ({ s.resetVisited with pool := #[{}] } : Search).Marked :=
  ⟨by simp [resetVisited], fun f => by
    simp only [resetVisited, getD_replicate_false]
    simp [Sequence.lastFn?]⟩

/-- Breadth-first search that does not skip, from an empty pool and up to a positive length,
leaves the layers up to that length, and marks their last functions visited. -/
theorem bfs_exhaustive (empty : s.pool = #[]) {maxLen : Nat} (positive : 1 ≤ maxLen)
    (stopAtEnd : Bool) :
    (s.bfs maxLen stopAtEnd false).pool.toList = s.api.layers stopAtEnd maxLen ∧
      (s.bfs maxLen stopAtEnd false).Marked := by
  rw [bfs_of_empty empty positive]
  have started := @bfsLayers_exhaustive _ stopAtEnd maxLen 0 _ rfl
    (by simp [Api.layers, Api.layer]) (marked_start (s := s))
  rwa [Nat.zero_add] at started

/-- From the layers up to `len`, the rounds of a deep search push the layers after it, stopping
at its ceiling or when a layer brings nothing new. They stop after some layer `L` within their
fuel, and past `len` when they may go on and `len` is below the ceiling's first length. -/
theorem deepLayers_layers (ceiling : Nat) : ∀ (fuel len : Nat) (fns edges : Array Bool)
    {s : Search}, s.api = api → s.pool.toList = api.layers true len →
    ∃ L, len ≤ L ∧ L ≤ len + fuel ∧ (0 < fuel → len ≤ 2 → len < L) ∧
      (s.deepLayers ceiling fuel len fns edges).pool.toList = api.layers true L
  | 0, len, _, _, _, _, pool => ⟨len, Nat.le_refl _, by omega, by omega, pool⟩
  | fuel + 1, len, fns, edges, s, api_eq, pool => by
    rw [deepLayers]
    split
    · rename_i ceilingHit
      simp only [Bool.and_eq_true, decide_eq_true_eq] at ceilingHit
      exact ⟨len, Nat.le_refl _, by omega, by omega, pool⟩
    extract_lets frontier
    split
    rename_i t fns' edges' fresh layer
    -- the fold pushes the extensions of the frontier, whatever it finds new
    have pushed : t = s.pushAll (frontier.flatMap s.api.extensions) := by
      refine foldl_prefix_invariant (P := fun done (st : Search × Array Bool × Array Bool × Bool) =>
        st.1 = s.pushAll (done.flatMap s.api.extensions)) rfl ?_ layer
      intro done q _ st _ holds
      refine (foldl_prefix_invariant (P := fun fs (st' : Search × Array Bool × Array Bool × Bool) =>
        st'.1 = st.1.pushAll (fs.filterMap (s.api.extend? 0 q))) (by simp [pushAll]) ?_ rfl).trans ?_
      · intro fs f _ st' _ holds'
        obtain ⟨u, fns₁, edges₁, fresh₁⟩ := st'
        dsimp only at holds' ⊢
        rw [holds] at holds'
        subst holds'
        split <;> rename_i found <;> simp only [api_pushAll] at found <;>
          simp [found, pushAll, holds]
      · simp [holds, pushAll_append, Api.extensions]
    have layered : t.pool.toList = api.layers true (len + 1) := by
      rw [pushed, pool_pushAll, Api.layers_succ]
      simp only [frontier, api_eq]
      rw [pool, Api.filter_layers len fun q => !api.isEnded q, Api.layer]
      simp
    split
    · obtain ⟨L, above, within, -, result⟩ :=
        deepLayers_layers ceiling fuel (len + 1) fns' edges' (by rw [pushed, api_pushAll, api_eq])
          layered
      exact ⟨L, by omega, by omega, fun _ _ => by omega, result⟩
    · exact ⟨len + 1, by omega, by omega, fun _ _ => by omega, layered⟩

theorem clearPool_eq (empty : s.pool = #[]) : s.clearPool = s := by
  cases s
  simp_all [clearPool]

/-- Deep breadth-first search leaves the pool that breadth-first search to end functions leaves
from an empty pool, for the number of layers it ran, at most one per function. -/
theorem tryDeepBfs_layers (s : Search) (ceiling : Nat) :
    ∃ L ≤ s.api.size, (s.tryDeepBfs ceiling).pool = (s.clearPool.bfs L true false).pool := by
  unfold tryDeepBfs
  dsimp only
  split
  · -- no function: both searches leave the empty pool
    rename_i noFunction
    refine ⟨0, Nat.zero_le _, ?_⟩
    simp [bfs, clearPool, resetVisited]
  · rename_i someFunction
    obtain ⟨L, -, within, started, layered⟩ := deepLayers_layers ceiling s.api.size 0
      (Array.replicate s.api.size false) (Array.replicate s.api.graph.numEdges false)
      (s := { s.clearPool.resetVisited with pool := #[{}] }) rfl
      (by simp [Api.layers, Api.layer])
    simp only [clearPool, resetVisited, Nat.not_lt] at someFunction
    have positive : 1 ≤ L := started (by omega) (by omega)
    refine ⟨L, by simpa using within, Array.toList_inj.mp (layered.trans ?_)⟩
    rw [(bfs_exhaustive rfl positive true).1]
    rfl

/-- The function lists of the pooled sequences, in pool order. -/
def words (s : Search) : List (List Nat) := s.pool.toList.map Sequence.fns

/-- From an empty pool, breadth-first search without skipping pools each admissible list of at most
`maxLen` functions once, shorter lists first, and visits exactly their last functions; deep
breadth-first search leaves what it leaves for some number of layers. -/
theorem bfs_enumerates (empty : s.pool = #[]) {maxLen : Nat} (positive : 1 ≤ maxLen)
    (stopAtEnd : Bool) (ceiling : Nat) :
    (s.bfs maxLen stopAtEnd false).words.Nodup ∧
      (∀ w, w ∈ (s.bfs maxLen stopAtEnd false).words ↔
        w.length ≤ maxLen ∧ s.api.Admissible stopAtEnd w) ∧
      (s.bfs maxLen stopAtEnd false).words.Pairwise (fun v w => v.length ≤ w.length) ∧
      (∀ f, (s.bfs maxLen stopAtEnd false).visited.getD f false = true ↔
        ∃ w ∈ (s.bfs maxLen stopAtEnd false).words, w.getLast? = some f) ∧
      ∃ L ≤ s.api.size, (s.tryDeepBfs ceiling).pool = (s.bfs L true false).pool := by
  obtain ⟨pool, marked⟩ := bfs_exhaustive empty positive stopAtEnd
  have listed : (s.bfs maxLen stopAtEnd false).words =
      (s.api.layers stopAtEnd maxLen).map Sequence.fns := by
    rw [words, pool]
  have ordered := @Api.layers_pairwise s.api stopAtEnd maxLen
  obtain ⟨L, within, deep⟩ := tryDeepBfs_layers s ceiling
  refine ⟨?_, fun w => by rw [listed, Api.mem_layers_fns], ?_, fun f => ?_,
    ⟨L, within, by rw [deep, clearPool_eq empty]⟩⟩
  · rw [listed, List.Nodup, List.pairwise_map]
    exact ordered.imp (·.2)
  · rw [listed, List.pairwise_map]
    exact ordered.imp fun {a b} ordered => by simpa using ordered.1
  · rw [marked.visited_iff f, words]
    constructor
    · rintro ⟨q, pooled, last⟩
      exact ⟨q.fns, List.mem_map_of_mem pooled, by rwa [← Sequence.lastFn?_eq_getLast?]⟩
    · rintro ⟨w, listed, last⟩
      obtain ⟨q, pooled, rfl⟩ := List.mem_map.mp listed
      exact ⟨q, pooled, by rwa [Sequence.lastFn?_eq_getLast?]⟩

end Search

/-- Breadth-first search to three calls over `closingCatalog`, which stops at end functions,
pools each admissible list once. -/
theorem closingSearch_bfs_enumerates :
    (closingSearch.bfs 3 true false).words.Nodup ∧
      ∀ w, w ∈ (closingSearch.bfs 3 true false).words ↔
        w.length ≤ 3 ∧ (Api.ofCatalog closingCatalog).Admissible true w := by
  obtain ⟨nodup, listed, -⟩ := Search.bfs_enumerates (s := closingSearch) rfl
    (by decide : 1 ≤ 3) true 100
  exact ⟨nodup, listed⟩

end DriverSynth
