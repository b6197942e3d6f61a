import DriverSynth.Proofs.GraphIndex
import DriverSynth.Proofs.Ending
import DriverSynth.Explore
import DriverSynth.Doc.Read

/-! # Bounds checks of the fuzz entry point

Graph construction checks that the catalog fits the widths of the triple key (`Graph.buildFits`),
and each lookup checks its triple again. Reading a catalog checks neither, so the fuzz entry point
ends the process on a consumer too wide (`fuzzRun_aborted`). When every function has at most
`Graph.paramLimit` parameters, every triple that admission looks up has a key
(`Api.admitAborts_eq_false`), the checked search is the search (`Search.bfsChecked_eq`), and the
fuzz entry point explores (`fuzzRun_explores`).
-/

namespace DriverSynth

namespace Graph

variable {catalog : Catalog}

/-- A producer of an edge produces. -/
theorem produces_of_mem_edges {e : Edge} (member : e ∈ (build catalog).edges.toList) :
    produces catalog e.producer = true := by
  obtain ⟨-, -, notEnd, -, produced, -, out, -⟩ := linkFor_eq_some_iff.mp (mem_edges.mp member)
  simp [produces, notEnd, out]

/-- Once some function produces, every function that is no start function has at most
`paramLimit` parameters, when the bounds checks pass. -/
theorem narrow_of_buildFits (fits : buildFits catalog = true) {p : Nat} (bound : p < catalog.size)
    (producing : produces catalog p = true) {c : Nat} (consumer : c < catalog.size)
    (notStart : catalog.isStart c = false) : (catalog.sig c).params.length ≤ paramLimit := by
  simp only [buildFits, Bool.and_eq_true, decide_eq_true_eq, Bool.or_eq_true, Bool.not_eq_true',
    List.any_eq_false, List.all_eq_true, List.mem_range] at fits
  rcases fits.2 with none | all
  · exact absurd producing (by simpa using none p bound)
  · simpa [notStart] using all c consumer

/-- When the bounds checks pass, every edge that graph construction files has a key. -/
theorem keyed_of_buildFits (fits : buildFits catalog = true) :
    ∀ e ∈ (build catalog).edges.toList, e.key?.isSome := by
  intro e member
  obtain ⟨producer, consumer, -, notStart, -, consumed, -, param, -⟩ :=
    linkFor_eq_some_iff.mp (mem_edges.mp member)
  have few : catalog.size ≤ functionIdLimit := by
    simp only [buildFits, Bool.and_eq_true, decide_eq_true_eq] at fits
    exact fits.1
  -- the parameter is one of the consumer's, which is no wider than the checks allow
  have position : e.param < (catalog.sig e.consumer).params.length := by
    cases found : (catalog.sig e.consumer).params[e.param]? with
    | none => simp [found] at param
    | some t => exact (List.getElem?_eq_some_iff.mp found).1
  have narrow := narrow_of_buildFits fits producer (produces_of_mem_edges member) consumer notStart
  exact tripleKey?_isSome.mpr ⟨by omega, by omega, by omega⟩

/-- A catalog of few functions whose functions that are no start functions have few parameters
passes the bounds checks. -/
theorem buildFits_of_narrow (few : catalog.size ≤ functionIdLimit)
    (narrow : ∀ f < catalog.size, catalog.isStart f = false →
      (catalog.sig f).params.length ≤ paramLimit) : buildFits catalog = true := by
  simp only [buildFits, Bool.and_eq_true, decide_eq_true_eq, Bool.or_eq_true, Bool.not_eq_true',
    List.all_eq_true, List.mem_range]
  refine ⟨few, .inr fun c bound => ?_⟩
  cases start : catalog.isStart c
  · exact .inr (narrow c bound start)
  · exact .inl rfl

end Graph

/-- Every call of the sequence is of a function below `bound`. -/
def Sequence.CallsBelow (bound : Nat) (q : Sequence) : Prop :=
  ∀ call ∈ q.calls.toList, call.fn < bound

theorem Sequence.CallsBelow.mono {q : Sequence} {bound bound' : Nat} (calls : q.CallsBelow bound)
    (le : bound ≤ bound') : q.CallsBelow bound' :=
  fun call listed => Nat.lt_of_lt_of_le (calls call listed) le

namespace Api

variable {api : Api}

/-- When every triple it may look up has a key, the checked search for a supplier finishes. -/
theorem supplierChecked?_isSome {base : Sequence} {borrows : Borrows} {fn k : Nat}
    (keyed : ∀ j < base.size, (Graph.tripleKey? (base.calls.getD j default).fn fn k).isSome) :
    (api.supplierChecked? base borrows fn k).isSome := by
  unfold supplierChecked?
  -- by induction on the calls still to look at
  suffices ∀ js : List Nat, (∀ j ∈ js, j < base.size) → (js.findSomeM? fun j =>
      if base.isMoved j then some none
      else (api.graph.lookup? (base.calls.getD j default).fn fn k).map fun ids =>
        (ids.find? fun id => borrows.allows j (api.graph.edge id).link.mode).map (j, ·)).isSome from
    this _ fun j member => List.mem_range.mp member
  intro js
  induction js with
  | nil => intro _; rfl
  | cons j rest ih =>
    intro below
    have found : (api.graph.lookup? (base.calls.getD j default).fn fn k).isSome := by
      simpa [Graph.lookup?] using keyed j (below j (List.mem_cons_self ..))
    obtain ⟨ids, looked⟩ := Option.isSome_iff_exists.mp found
    have rest' := ih fun j' member => below j' (List.mem_cons_of_mem _ member)
    rw [List.findSomeM?_cons]
    split
    · exact rest'
    · rw [looked, Option.map_some]
      cases (ids.find? fun id => borrows.allows j (api.graph.edge id).link.mode) with
      | none => exact rest'
      | some id => rfl

/-- Admitting a function whose triples all fit after a sequence of such functions never looks up
a triple without a key. -/
theorem admitAborts_eq_false {s : Sequence} {fn : Nat}
    (calls : s.CallsBelow Graph.functionIdLimit) (target : fn < Graph.functionIdLimit)
    (narrow : (api.catalog.sig fn).params.length ≤ Graph.paramLimit) :
    api.admitAborts s fn = false := by
  unfold admitAborts
  simp only [Bool.and_eq_false_iff, List.any_eq_false, List.mem_range]
  refine .inr fun k param => ?_
  split
  · rename_i d _
    -- every earlier call is of a function that fits, and so is the parameter
    have keyed : ∀ j < s.size, (Graph.tripleKey? (s.calls.getD j default).fn fn k).isSome := by
      intro j bound
      exact Graph.tripleKey?_isSome.mpr ⟨calls _ (getD_mem_toList bound), target, by omega⟩
    have finished : (api.supplierChecked? s d.borrows fn k).isSome := supplierChecked?_isSome keyed
    simp [Option.isNone_iff_eq_none, Option.isSome_iff_ne_none.mp finished]
  · simp

end Api

namespace Search

variable {stopAtEnd fast : Bool}

/-- A fold in `Option` whose steps, on states with an invariant, are those of a plain fold that
keeps the invariant, gives that fold, and the invariant holds of its end. -/
theorem foldlM_eq_some_foldl {α β : Type} {g : β → α → Option β} {f : β → α → β}
    (P : β → Prop) {l : List α} {b : β} (start : P b)
    (step : ∀ b, P b → ∀ a ∈ l, g b a = some (f b a) ∧ P (f b a)) :
    l.foldlM g b = some (l.foldl f b) ∧ P (l.foldl f b) := by
  induction l generalizing b with
  | nil => exact ⟨rfl, start⟩
  | cons a rest ih =>
    obtain ⟨same, kept⟩ := step b start a (List.mem_cons_self ..)
    rw [List.foldlM_cons, same, Option.bind_eq_bind, Option.bind_some, List.foldl_cons]
    exact ih kept fun b' holds a' member => step b' holds a' (List.mem_cons_of_mem _ member)

/-- A layer whose admissions all fit is checked to the end. -/
theorem extendLayerChecked_eq {s : Search} {frontier : List Sequence}
    (fits : ∀ q ∈ frontier, ∀ f < s.api.size, s.api.admitAborts q f = false) :
    s.extendLayerChecked fast frontier = some (s.extendLayer fast frontier) := by
  unfold extendLayerChecked extendLayer
  -- both folds keep the API, so the candidates and the checks are those of `s`
  refine (foldlM_eq_some_foldl (fun st : Search × Bool => st.1.api = s.api) rfl ?_).1
  rintro ⟨t, stop⟩ same q member
  refine foldlM_eq_some_foldl (fun st : Search × Bool => st.1.api = s.api) same ?_
  rintro ⟨t', stop'⟩ same' f candidate
  dsimp only at same same' ⊢
  have bound : f < s.api.size := same ▸ List.mem_range.mp candidate
  split
  · exact ⟨rfl, same'⟩
  · rw [same', fits q member f bound]
    cases s.api.extend? 0 q f <;> exact ⟨rfl, same'⟩

/-- From a search over `api` whose pooled sequences call functions of the catalog, and an
`api` whose functions all fit the widths of the key, the checked layers are the layers. -/
theorem bfsLayersChecked_eq {api : Api} (few : api.size ≤ Graph.functionIdLimit)
    (narrow : ∀ f < api.size, (api.catalog.sig f).params.length ≤ Graph.paramLimit) :
    ∀ (fuel len : Nat) (s : Search), s.Keeps api (·.CallsBelow api.size) →
      bfsLayersChecked stopAtEnd fast fuel len s = some (bfsLayers stopAtEnd fast fuel len s)
  | 0, _, _, _ => rfl
  | fuel + 1, len, s, keeps => by
    rw [bfsLayersChecked, bfsLayers]
    split
    · rfl
    dsimp only
    have fits : ∀ q ∈ s.pool.toList.filter (fun q => q.size == len &&
        !(stopAtEnd && s.api.isEnded q)), ∀ f < s.api.size, s.api.admitAborts q f = false := by
      intro q member f bound
      rw [keeps.api_eq] at bound ⊢
      exact Api.admitAborts_eq_false
        (Sequence.CallsBelow.mono (keeps.pooled q (List.mem_filter.mp member).1) few) (by omega)
        (narrow f bound)
    -- the layer pools admitted extensions, which call functions of the catalog too
    have grown : (s.extendLayer fast (s.pool.toList.filter fun q => q.size == len &&
        !(stopAtEnd && s.api.isEnded q))).1.Keeps api (·.CallsBelow api.size) := by
      refine (keeps.grows.extendLayer fun q member f bound e extended => ?_).keeps
        (fun _ none => absurd none List.not_mem_nil) fun _ holds => holds
      obtain ⟨args, produces, calls⟩ := Api.extend?_calls extended
      intro call listed
      rw [calls, Array.toList_push, List.mem_append, List.mem_singleton] at listed
      rcases listed with old | rfl
      · exact keeps.pooled q (List.mem_filter.mp member).1 call old
      · exact bound
    rw [extendLayerChecked_eq fits]
    dsimp only
    split
    · rfl
    · exact bfsLayersChecked_eq few narrow fuel (len + 1) _ grown

/-- From such a search, breadth-first search makes no lookup that ends the process. -/
theorem bfsChecked_eq {api : Api} (few : api.size ≤ Graph.functionIdLimit)
    (narrow : ∀ f < api.size, (api.catalog.sig f).params.length ≤ Graph.paramLimit)
    {s : Search} (keeps : s.Keeps api (·.CallsBelow api.size)) (maxLen : Nat) :
    s.bfsChecked maxLen stopAtEnd fast = some (s.bfs maxLen stopAtEnd fast) := by
  unfold bfsChecked bfs
  dsimp only
  split
  · rfl
  · apply bfsLayersChecked_eq few narrow
    split
    · exact keeps.resetVisited
    · exact keeps.resetVisited.push fun call listed => by simp at listed

end Search

/-- A catalog read from text, with a function that produces and a function that is no start
function with more than `Graph.paramLimit` parameters, ends the fuzz entry point: reading checks
no parameter count, and graph construction does. -/
theorem fuzzRun_aborted {json : JsonCodec} {text : String} {c : Catalog}
    (parsed : Catalog.parse json text = .ok c) {p : Nat} (bound : p < c.size)
    (producing : Graph.produces c p = true) {f : Nat} (consumer : f < c.size)
    (notStart : c.isStart f = false) (wide : Graph.paramLimit < (c.sig f).params.length) :
    fuzzRun json text = .aborted := by
  have unfit : Graph.buildFits c = false := by
    cases fits : Graph.buildFits c
    · rfl
    · exact absurd (Graph.narrow_of_buildFits fits bound producing consumer notStart) (by omega)
  simp [fuzzRun, parsed, unfit]

/-- A text that reads as a catalog within the widths of the key, start functions included, passes
every bounds check, and the fuzz entry point explores it by breadth-first search. -/
theorem fuzzRun_explores {json : JsonCodec} {text : String} {c : Catalog}
    (parsed : Catalog.parse json text = .ok c) (few : c.size ≤ Graph.functionIdLimit)
    (narrow : ∀ f < c.size, (c.sig f).params.length ≤ Graph.paramLimit) :
    fuzzRun json text = .explored ((Search.new (Api.ofCatalog c) { seed := 1 }).bfs 2 true true) ∧
      (∀ e ∈ (Graph.build c).edges.toList, e.key?.isSome) ∧
      ∀ q f, q.CallsBelow c.size → f < c.size → (Api.ofCatalog c).admitAborts q f = false := by
  have fits := Graph.buildFits_of_narrow few fun f bound _ => narrow f bound
  have fresh : (Search.new (Api.ofCatalog c) { seed := 1 }).Keeps (Api.ofCatalog c)
      (·.CallsBelow (Api.ofCatalog c).size) := ⟨rfl, by simp [Search.new]⟩
  have explored : c.explore = some ((Search.new (Api.ofCatalog c) { seed := 1 }).bfs 2 true true) :=
    Search.bfsChecked_eq (show (Api.ofCatalog c).size ≤ _ from few) narrow fresh 2
  exact ⟨by simp [fuzzRun, parsed, fits, explored], Graph.keyed_of_buildFits fits,
    fun q f calls bound => Api.admitAborts_eq_false (calls.mono few) (by omega) (narrow f bound)⟩

/-- The catalog text of `new_a`, a start function that makes an `A`, `use_a`, which turns an `A`
into a `B`, and `target`, an end function that takes both. -/
def chainCatalogText : String :=
  "\x7b\"functions\":[\x7b\"name\":\"new_a\",\"params\":[],\"output\":\x7b\"kind\":\"path\"," ++
    "\"name\":\"A\"\x7d\x7d,\x7b\"name\":\"use_a\",\"params\":[\x7b\"kind\":\"path\"," ++
    "\"name\":\"A\"\x7d],\"output\":\x7b\"kind\":\"path\",\"name\":\"B\"\x7d\x7d," ++
    "\x7b\"name\":\"target\",\"params\":[\x7b\"kind\":\"path\",\"name\":\"A\"\x7d," ++
    "\x7b\"kind\":\"path\",\"name\":\"B\"\x7d]\x7d],\"start\":[\"new_a\"],\"end\":[\"target\"]\x7d"

/-- The fuzz entry point explores that catalog, and its search admits `use_a` after `new_a`,
looking up the edge between them. -/
theorem chainCatalogText_explores :
    ∃ c, Catalog.parse .standard chainCatalogText = .ok c ∧ c.size ≤ Graph.functionIdLimit ∧
      (∀ f < c.size, (c.sig f).params.length ≤ Graph.paramLimit) ∧
      (fuzzRun .standard chainCatalogText =
          .explored ((Search.new (Api.ofCatalog c) { seed := 1 }).bfs 2 true true) ∧
        (∀ e ∈ (Graph.build c).edges.toList, e.key?.isSome) ∧
        ∀ q f, q.CallsBelow c.size → f < c.size → (Api.ofCatalog c).admitAborts q f = false) ∧
      ((Search.new (Api.ofCatalog c) { seed := 1 }).bfs 2 true true).pool.toList.map Sequence.fns =
        [[], [0], [0, 1]] := by
  -- the text reads as a catalog that fits, and its search is the one above, as evaluating shows
  have checked : ((Catalog.parse .standard chainCatalogText).toOption.map fun c =>
      decide (c.size ≤ Graph.functionIdLimit ∧
        ∀ f < c.size, (c.sig f).params.length ≤ Graph.paramLimit) &&
      ((Search.new (Api.ofCatalog c) { seed := 1 }).bfs 2 true true).pool.toList.map
        Sequence.fns == [[], [0], [0, 1]]) = some true := by
    decide +kernel
  cases parsed : Catalog.parse .standard chainCatalogText with
  | error e =>
    rw [parsed] at checked
    cases checked
  | ok c =>
    rw [parsed] at checked
    simp only [Option.map_some, Option.some.injEq, Bool.and_eq_true, decide_eq_true_eq,
      beq_iff_eq, Except.toOption] at checked
    obtain ⟨⟨few, narrow⟩, pooled⟩ := checked
    exact ⟨c, rfl, few, narrow, fuzzRun_explores parsed few narrow, pooled⟩

end DriverSynth
