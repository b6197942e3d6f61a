import DriverSynth.Proofs.FastBreadth
import Mathlib.Data.Nat.Find
import Mathlib.Data.Finset.Card

/-! # Seed replay

Replay drops the chains that name a function outside the catalog. When there are chains and none
resolves it fails and gives back no search; otherwise it starts from an empty pool with nothing
visited (`Search.replay_atomic`). Each resolved chain is admitted one function after the other
until one is refused, and every admitted prefix is pooled (`Api.extensionsFrom`). The report
counts the pooled sequences and chains and splits the names of the resolved chains by admission
(`Search.replay_pools_prefixes`).
-/

namespace DriverSynth

/-- A frequency list for the names of `names`: sorted by name, each name once, and holding exactly
those names. -/
structure Counts (counts : List (String × Int64)) (names : List String) : Prop where
  sorted : counts.Pairwise (·.1 < ·.1)
  mem_iff : ∀ k, k ∈ counts.map (·.1) ↔ k ∈ names

theorem mem_keys_addFrequency {name k : String} {f : Int64} {counts : List (String × Int64)} :
    k ∈ (addFrequency name f counts).map (·.1) ↔ k = name ∨ k ∈ counts.map (·.1) := by
  induction counts with
  | nil => simp [addFrequency]
  | cons c counts ih =>
    obtain ⟨k', v⟩ := c
    unfold addFrequency
    split
    · simp
    · split
      · rename_i same
        subst same
        simp
      · simp [ih, or_left_comm]

theorem addFrequency_sorted {name : String} {f : Int64} {counts : List (String × Int64)}
    (sorted : counts.Pairwise (·.1 < ·.1)) : (addFrequency name f counts).Pairwise (·.1 < ·.1) := by
  induction counts with
  | nil => simp [addFrequency]
  | cons c counts ih =>
    obtain ⟨k, v⟩ := c
    obtain ⟨above, tailSorted⟩ := List.pairwise_cons.mp sorted
    unfold addFrequency
    split
    · rename_i below
      refine List.Pairwise.cons ?_ sorted
      intro b member
      rcases List.mem_cons.mp member with rfl | member
      · exact below
      · exact String.lt_trans below (above b member)
    · split
      · rename_i same
        subst same
        exact List.Pairwise.cons (fun b member => above b member) tailSorted
      · rename_i notBelow notSame
        have less : k < name := Std.lt_of_le_of_ne (String.not_lt.mp notBelow) (Ne.symm notSame)
        refine List.Pairwise.cons ?_ (ih tailSorted)
        intro b member
        have key : b.1 ∈ (addFrequency name f counts).map (·.1) := List.mem_map_of_mem member
        rcases mem_keys_addFrequency.mp key with same | old
        · rw [same]
          exact less
        · obtain ⟨b', member', same⟩ := List.mem_map.mp old
          rw [← same]
          exact above b' member'

namespace Counts

variable {counts : List (String × Int64)} {names : List String}

theorem addFrequency (holds : Counts counts names) (name : String) (f : Int64) :
    Counts (DriverSynth.addFrequency name f counts) (names ++ [name]) where
  sorted := addFrequency_sorted holds.sorted
  mem_iff k := by simp [mem_keys_addFrequency, holds.mem_iff, or_comm]

/-- Counting the names of a chain one after the other. -/
theorem foldl (holds : Counts counts names) (f : Int64) (more : List String) :
    Counts (more.foldl (fun acc name => DriverSynth.addFrequency name f acc) counts)
      (names ++ more) := by
  induction more generalizing counts names with
  | nil => simpa using holds
  | cons name more ih =>
    simpa using ih (holds.addFrequency name f)

theorem keys_nodup (holds : Counts counts names) : (counts.map (·.1)).Nodup :=
  (List.pairwise_map.mpr holds.sorted).imp fun less => String.ne_of_lt less

/-- A frequency list has one entry per distinct name. -/
theorem length_eq_card (holds : Counts counts names) : counts.length = names.toFinset.card := by
  have sameNames : (counts.map (·.1)).toFinset = names.toFinset := by
    ext k
    simp only [List.mem_toFinset, holds.mem_iff]
  rw [← List.length_map (·.1), ← List.toFinset_card_of_nodup holds.keys_nodup, sameNames]

end Counts

theorem mapM_eq_none_iff {α β : Type} {f : α → Option β} {l : List α} :
    l.mapM f = none ↔ ∃ x ∈ l, f x = none := by
  induction l with
  | nil => simp
  | cons x l ih =>
    cases found : f x with
    | none => simp [found]
    | some y =>
      have later : (∃ a ∈ x :: l, f a = none) ↔ ∃ a ∈ l, f a = none := by simp [found]
      rw [later, ← ih, List.mapM_cons, found]
      cases l.mapM f <;> simp

theorem mem_of_mapM_eq_some {α β : Type} {f : α → Option β} :
    ∀ {l : List α} {ys : List β}, l.mapM f = some ys → ∀ y ∈ ys, ∃ x ∈ l, f x = some y
  | [], ys, mapped => by
    simp only [List.mapM_nil, pure, Option.some.injEq] at mapped
    simp [← mapped]
  | x :: l, ys, mapped => by
    rw [List.mapM_cons] at mapped
    cases found : f x with
    | none => simp [found] at mapped
    | some y' =>
      cases rest : l.mapM f with
      | none => simp [found, rest] at mapped
      | some ys' =>
        simp only [found, rest, bind, Option.bind_some, pure, Option.some.injEq] at mapped
        subst mapped
        intro y member
        rcases List.mem_cons.mp member with rfl | later
        · exact ⟨x, List.mem_cons_self, found⟩
        · obtain ⟨x', member', found'⟩ := mem_of_mapM_eq_some rest y later
          exact ⟨x', List.mem_cons_of_mem _ member', found'⟩

-- The chains a filter keeps, paired with what they resolve to.
theorem filterMap_pair {α β : Type} (g : α → Option β) (l : List α) :
    (l.filterMap fun a => (g a).map (a, ·)).map Prod.fst = l.filter (fun a => (g a).isSome) ∧
      (l.filterMap fun a => (g a).map (a, ·)).map Prod.snd = l.filterMap g := by
  induction l with
  | nil => exact ⟨rfl, rfl⟩
  | cons a l ih =>
    cases found : g a with
    | none => simp [found, ih]
    | some b => simp [found, ih]

namespace Catalog

/-- The id `find?` gives is a function of that name. -/
theorem find?_eq_some_sig {c : Catalog} {name : String} {i : Nat} (found : c.find? name = some i) :
    i < c.size ∧ (c.sig i).name = name := by
  unfold find? at found
  obtain ⟨bound, named, -⟩ := Array.findIdx?_eq_some_iff_getElem.mp found
  refine ⟨bound, ?_⟩
  simpa [sig, bound] using named

end Catalog

namespace Api

variable {api : Api}

/-- The function ids of the chains whose names are all in the catalog, in order. -/
def resolveChains (api : Api) (chains : List SeedChain) : List (List Nat) :=
  chains.filterMap fun chain => chain.functions.mapM api.catalog.find?

/-- The names of the chains whose names are all in the catalog, in order and with repeats. -/
def corpusNames (api : Api) (chains : List SeedChain) : List String :=
  (chains.filter fun chain => (chain.functions.mapM api.catalog.find?).isSome).flatMap
    (·.functions)

/-- The sequences that admitting the functions one after the other builds from `q`, up to the
first function admission refuses. -/
def extensionsFrom (api : Api) (q : Sequence) : List Nat → List Sequence
  | [] => []
  | f :: rest =>
    match api.extend? 0 q f with
    | none => []
    | some e => e :: api.extensionsFrom e rest

/-- The functions of a chain that replay admits: those before the first refused. -/
def admittedIn (api : Api) (ids : List Nat) : List Nat := ids.take (api.extensionsFrom {} ids).length

/-- The length of the longest prefix of `fns` that admission replays from the empty sequence. -/
def admissibleLength (api : Api) (fns : List Nat) : Nat :=
  Nat.findGreatest (fun m => (api.replay? (fns.take m)).isSome) fns.length

theorem resolveChains_eq_nil_iff {chains : List SeedChain} :
    api.resolveChains chains = [] ↔
      ∀ c ∈ chains, ∃ name ∈ c.functions, api.catalog.find? name = none := by
  simp only [resolveChains, List.filterMap_eq_nil_iff, mapM_eq_none_iff]

/-- Every id of a resolved chain is the id of one of its names. -/
theorem mem_resolveChains {chains : List SeedChain} {ids : List Nat}
    (resolved : ids ∈ api.resolveChains chains) {f : Nat} (member : f ∈ ids) :
    ∃ c ∈ chains, (c.functions.mapM api.catalog.find?).isSome ∧
      ∃ name ∈ c.functions, api.catalog.find? name = some f := by
  obtain ⟨c, chain, mapped⟩ := List.mem_filterMap.mp resolved
  obtain ⟨name, named, found⟩ := mem_of_mapM_eq_some mapped f member
  exact ⟨c, chain, by simp [mapped], name, named, found⟩

/-- Admitting more functions after a prefix that admission replays in full goes on from the
sequence the prefix built. -/
theorem extensionsFrom_append {q q' : Sequence} {done : List Nat}
    (admitted : done.foldlM (fun s f => api.extend? 0 s f) q = some q') (rest : List Nat) :
    api.extensionsFrom q (done ++ rest) = api.extensionsFrom q done ++ api.extensionsFrom q' rest := by
  induction done generalizing q with
  | nil =>
    cases admitted
    rfl
  | cons f done ih =>
    rw [List.foldlM_cons] at admitted
    cases extended : api.extend? 0 q f with
    | none => simp [extended] at admitted
    | some e =>
      simp only [extended, Option.bind_eq_bind, Option.bind_some] at admitted
      simp only [List.cons_append, extensionsFrom, extended, ih admitted]

/-- Once a function is refused, later functions add nothing. -/
theorem extensionsFrom_append_of_lt {q : Sequence} {done : List Nat}
    (refused : (api.extensionsFrom q done).length < done.length) (rest : List Nat) :
    api.extensionsFrom q (done ++ rest) = api.extensionsFrom q done := by
  induction done generalizing q with
  | nil => simp at refused
  | cons f done ih =>
    cases extended : api.extend? 0 q f with
    | none => simp [extensionsFrom, extended]
    | some e =>
      simp only [extensionsFrom, extended, List.length_cons, Nat.add_lt_add_iff_right] at refused
      simp only [List.cons_append, extensionsFrom, extended, ih refused]

theorem length_extensionsFrom_le (q : Sequence) (l : List Nat) :
    (api.extensionsFrom q l).length ≤ l.length := by
  induction l generalizing q with
  | nil => exact Nat.le_refl 0
  | cons f l ih =>
    cases extended : api.extend? 0 q f with
    | none => simp [extensionsFrom, extended]
    | some e => simpa [extensionsFrom, extended] using ih e

/-- The `k`-th sequence is what admitting the first `k + 1` functions builds. -/
theorem extensionsFrom_map_some (q : Sequence) (l : List Nat) :
    (api.extensionsFrom q l).map some =
      (List.range (api.extensionsFrom q l).length).map fun k =>
        (l.take (k + 1)).foldlM (fun s f => api.extend? 0 s f) q := by
  induction l generalizing q with
  | nil => rfl
  | cons f l ih =>
    cases extended : api.extend? 0 q f with
    | none => simp [extensionsFrom, extended]
    | some e =>
      simp only [extensionsFrom, extended, List.map_cons, List.length_cons,
        List.range_succ_eq_map, ih e, List.map_map]
      simp [Function.comp_def, List.foldlM_cons, extended]

/-- Every prefix up to the extensions' number is admitted. -/
theorem isSome_of_le_extensionsFrom (q : Sequence) (l : List Nat) :
    ∀ k ≤ (api.extensionsFrom q l).length,
      ((l.take k).foldlM (fun s f => api.extend? 0 s f) q).isSome := by
  induction l generalizing q with
  | nil => simp
  | cons f l ih =>
    intro k within
    cases k with
    | zero => rfl
    | succ k =>
      cases extended : api.extend? 0 q f with
      | none => simp [extensionsFrom, extended] at within
      | some e =>
        simp only [extensionsFrom, extended, List.length_cons, Nat.add_le_add_iff_right] at within
        simpa [List.foldlM_cons, extended] using ih e k within

/-- Every longer prefix is refused. -/
theorem eq_none_of_extensionsFrom_lt (q : Sequence) (l : List Nat) :
    ∀ k, (api.extensionsFrom q l).length < k → k ≤ l.length →
      (l.take k).foldlM (fun s f => api.extend? 0 s f) q = none := by
  induction l generalizing q with
  | nil => intro k longer within; simp at within; omega
  | cons f l ih =>
    intro k longer within
    cases k with
    | zero => omega
    | succ k =>
      cases extended : api.extend? 0 q f with
      | none => simp [List.foldlM_cons, extended]
      | some e =>
        simp only [extensionsFrom, extended, List.length_cons, Nat.add_lt_add_iff_right] at longer
        simpa [List.foldlM_cons, extended] using ih e k longer (by simpa using within)

/-- Replay pools as many sequences of a chain as its longest admissible prefix has functions. -/
theorem length_extensionsFrom (ids : List Nat) :
    (api.extensionsFrom {} ids).length = api.admissibleLength ids := by
  unfold admissibleLength
  symm
  rw [Nat.findGreatest_eq_iff]
  refine ⟨length_extensionsFrom_le {} ids, fun _ => ?_, fun k longer within refused => ?_⟩
  · exact isSome_of_le_extensionsFrom {} ids _ (Nat.le_refl _)
  · have none := eq_none_of_extensionsFrom_lt {} ids k longer within
    simp [replay?, none] at refused

/-- The sequences replay pools for a chain are the replays of its first 1, 2, … functions, up to
its longest admissible prefix. -/
theorem extensionsFrom_eq_replays (ids : List Nat) :
    (api.extensionsFrom {} ids).map some =
      (List.range (api.admissibleLength ids)).map fun k => api.replay? (ids.take (k + 1)) := by
  rw [extensionsFrom_map_some, length_extensionsFrom]
  rfl

/-- The `k`-th sequence ends in the `k`-th function. -/
theorem extensionsFrom_lastFn? (q : Sequence) (l : List Nat) :
    (api.extensionsFrom q l).map (·.lastFn?) = (l.take (api.extensionsFrom q l).length).map some := by
  induction l generalizing q with
  | nil => rfl
  | cons f l ih =>
    cases extended : api.extend? 0 q f with
    | none => simp [extensionsFrom, extended]
    | some e =>
      simp only [extensionsFrom, extended, List.map_cons, List.length_cons, List.take_succ_cons,
        ih e, Search.lastFn?_of_extend? extended]

theorem admittedIn_eq_take (ids : List Nat) :
    api.admittedIn ids = ids.take (api.admissibleLength ids) := by
  rw [admittedIn, length_extensionsFrom]

/-- A function ends a sequence replay pools for a chain exactly when replay admits it there. -/
theorem lastFn?_mem_extensionsFrom {ids : List Nat} {f : Nat} :
    (∃ q ∈ api.extensionsFrom {} ids, q.lastFn? = some f) ↔ f ∈ api.admittedIn ids := by
  have lasts := @extensionsFrom_lastFn? api {} ids
  constructor
  · rintro ⟨q, member, last⟩
    have : some f ∈ (api.extensionsFrom {} ids).map (·.lastFn?) := List.mem_map.mpr ⟨q, member, last⟩
    rw [lasts] at this
    obtain ⟨g, member, same⟩ := List.mem_map.mp this
    exact Option.some.inj same ▸ member
  · intro admitted
    have : some f ∈ (api.extensionsFrom {} ids).map (·.lastFn?) := by
      rw [lasts]
      exact List.mem_map_of_mem admitted
    simpa using this

/-- Whether a name is that of a function admitted in one of the resolved chains. -/
def admittedName (api : Api) (chains : List SeedChain) (name : String) : Bool :=
  match api.catalog.find? name with
  | some id => ((api.resolveChains chains).flatMap api.admittedIn).contains id
  | none => false

end Api

namespace Search

/-- Replaying a chain after its functions `done`: the pushes are the extensions so far, with the
functions admitted and their number; while replay goes on, every function of `done` is admitted
and `q` is what they built, and once it stops, one of them was refused. -/
structure ChainProgress (s : Search) (done : List Nat) (t : Search) (q : Sequence)
    (admitted : List Nat) (added : Nat) (going : Bool) : Prop where
  pushed : t = s.pushAll (s.api.extensionsFrom {} done)
  admitted_eq : admitted = done.take (s.api.extensionsFrom {} done).length
  added_eq : added = (s.api.extensionsFrom {} done).length
  built : going = true →
    (s.api.extensionsFrom {} done).length = done.length ∧ s.api.replay? done = some q
  refused : going = false → (s.api.extensionsFrom {} done).length < done.length

/-- Once replay has stopped, or stops at the next function, the progress stays as it was. -/
theorem ChainProgress.stop {s : Search} {done : List Nat} {f : Nat} {q : Sequence}
    (same : s.api.extensionsFrom {} (done ++ [f]) = s.api.extensionsFrom {} done) :
    ChainProgress s (done ++ [f]) (s.pushAll (s.api.extensionsFrom {} done)) q
      (done.take (s.api.extensionsFrom {} done).length) (s.api.extensionsFrom {} done).length
      false := by
  have le := s.api.length_extensionsFrom_le {} done
  refine ⟨by rw [same], ?_, by rw [same], (fun stuck => nomatch stuck), fun _ => ?_⟩
  · rw [same, List.take_append_of_le_length le]
  · rw [same, List.length_append, List.length_singleton]
    omega

/-- Replaying one chain pools the sequences that admitting its functions in order builds, up to
the first refused, and reports the functions admitted and how many. -/
theorem replayChain_eq (s : Search) (ids : List Nat) :
    s.replayChain ids =
      (s.pushAll (s.api.extensionsFrom {} ids), s.api.admittedIn ids,
        (s.api.extensionsFrom {} ids).length) := by
  unfold Search.replayChain
  generalize folded : List.foldl _ _ ids = final
  obtain ⟨t, q, admitted, added, going⟩ := final
  have progress : ChainProgress s ids t q admitted added going := by
    refine foldl_prefix_invariant
      (fun done st => ChainProgress s done st.1 st.2.1 st.2.2.1 st.2.2.2.1 st.2.2.2.2) ?_ ?_ folded
    · exact ⟨rfl, rfl, rfl, fun _ => ⟨rfl, rfl⟩, fun stopped => nomatch stopped⟩
    · rintro done f rest ⟨t, q, admitted, added, going⟩ - ⟨rfl, rfl, rfl, built, refused⟩
      dsimp only
      rw [api_pushAll]
      split
      · -- replay has stopped: later functions change nothing
        rename_i stopped
        obtain rfl : going = false := by simpa using stopped
        exact ChainProgress.stop (s.api.extensionsFrom_append_of_lt (refused rfl) [f])
      · rename_i going'
        obtain ⟨all, built⟩ := built (by simpa using going')
        have more := s.api.extensionsFrom_append built [f]
        split
        · -- `f` is refused: replay stops
          rename_i refused
          exact ChainProgress.stop (by simp [more, Api.extensionsFrom, refused])
        · -- `f` is admitted: its sequence is pooled and replay goes on from it
          rename_i e extended
          have grown : s.api.extensionsFrom {} (done ++ [f]) = s.api.extensionsFrom {} done ++ [e] := by
            simp [more, Api.extensionsFrom, extended]
          refine ⟨?_, ?_, ?_, fun _ => ⟨?_, ?_⟩, fun stopped => nomatch stopped⟩
          · rw [grown, pushAll_append]
            rfl
          · rw [grown, List.length_append, all, List.take_length, List.length_singleton,
              List.take_length_add_append, List.take_of_length_le (by simp)]
          · rw [grown, List.length_append]
            rfl
          · rw [grown, List.length_append, List.length_append, all]
            rfl
          · rw [Api.replay?_concat, built, Option.bind_some, extended]
  rw [progress.pushed, progress.admitted_eq, progress.added_eq]
  rfl

/-- What a successful replay returns: the search emptied and then given the sequences of the
resolved chains, the counts of their names, and a report that splits them by admission. -/
structure Replayed (s : Search) (chains : List SeedChain) (report : ReplayReport) (s' : Search) :
    Prop where
  search_eq : s' = s.clearPool.resetVisited.pushAll
    ((s.api.resolveChains chains).flatMap (s.api.extensionsFrom {}))
  counts : Counts report.corpusFrequency (s.api.corpusNames chains)
  totalFunctions_eq : report.totalFunctions = s.api.size
  chainsReplayed_eq : report.chainsReplayed = (s.api.resolveChains chains).length
  chainsDropped_eq : report.chainsDropped = chains.length - (s.api.resolveChains chains).length
  sequencesAdded_eq :
    report.sequencesAdded = ((s.api.resolveChains chains).flatMap (s.api.extensionsFrom {})).length
  covered_eq :
    report.covered = (report.corpusFrequency.map (·.1)).filter (s.api.admittedName chains)
  uncovered_eq :
    report.uncovered = (report.corpusFrequency.map (·.1)).filter (!s.api.admittedName chains ·)

theorem Replayed.of_replay {s s' : Search} {chains : List SeedChain} {report : ReplayReport}
    (replayed : s.replay chains = .ok (report, s')) : Replayed s chains report s' := by
  unfold Search.replay at replayed
  extract_lets resolve kept frequency at replayed
  obtain ⟨chainsKept, idsKept⟩ := filterMap_pair resolve chains
  split at replayed
  · cases replayed
  split at replayed
  rename_i t covered added folded
  extract_lets reached report' at replayed
  obtain ⟨rfl, rfl⟩ := Prod.mk.inj (Except.ok.inj replayed)
  -- the kept chains are the resolved ones, with the ids they resolve to
  have resolved : kept.map Prod.snd = s.api.resolveChains chains := idsKept
  have extensions : (kept.flatMap fun p => s.api.extensionsFrom {} p.2) =
      (s.api.resolveChains chains).flatMap (s.api.extensionsFrom {}) := by
    rw [← resolved, List.flatMap_map]
  have admitted : (kept.flatMap fun p => s.api.admittedIn p.2) =
      (s.api.resolveChains chains).flatMap s.api.admittedIn := by
    rw [← resolved, List.flatMap_map]
  have names : (kept.flatMap fun p => p.1.functions) = s.api.corpusNames chains := by
    rw [Api.corpusNames, ← List.flatMap_map Prod.fst, chainsKept]
  -- the names are counted chain after chain
  have counted : Counts frequency (kept.flatMap fun p => p.1.functions) := by
    refine foldl_prefix_invariant
      (fun (done : List (SeedChain × List Nat)) acc => Counts acc (done.flatMap fun p => p.1.functions))
      ⟨List.Pairwise.nil, by simp⟩ ?_ rfl
    rintro done ⟨chain, ids⟩ rest acc - counts
    dsimp only
    rw [List.flatMap_append, List.flatMap_singleton]
    exact counts.foldl chain.frequency chain.functions
  -- the chains are replayed in order, each from the empty sequence
  have run : t = s.clearPool.resetVisited.pushAll (kept.flatMap fun p => s.api.extensionsFrom {} p.2) ∧
      covered = kept.flatMap (fun p => s.api.admittedIn p.2) ∧
      added = (kept.flatMap fun p => s.api.extensionsFrom {} p.2).length := by
    refine foldl_prefix_invariant (fun done st =>
      st.1 = s.clearPool.resetVisited.pushAll (done.flatMap fun p => s.api.extensionsFrom {} p.2) ∧
        st.2.1 = done.flatMap (fun p => s.api.admittedIn p.2) ∧
        st.2.2 = (done.flatMap fun p => s.api.extensionsFrom {} p.2).length) ⟨rfl, rfl, rfl⟩ ?_ folded
    rintro done ⟨chain, ids⟩ rest ⟨t', covered', added'⟩ - ⟨rfl, rfl, rfl⟩
    dsimp only
    rw [replayChain_eq, api_pushAll]
    simp only [List.flatMap_append, List.flatMap_singleton, pushAll_append, List.length_append]
    exact ⟨rfl, rfl, rfl⟩
  obtain ⟨rfl, rfl, rfl⟩ := run
  have sameApi : (s.clearPool.resetVisited.pushAll
      (kept.flatMap fun p => s.api.extensionsFrom {} p.2)).api = s.api :=
    (api_pushAll _).trans rfl
  have reachedName : reached = s.api.admittedName chains := by
    funext name
    -- with the lookup fixed, both sides reduce to the same branch
    cases found : s.api.catalog.find? name <;>
      simp only [reached, Api.admittedName, sameApi, admitted, found]
  refine ⟨by rw [extensions], names ▸ counted, ?_, ?_, ?_, ?_, ?_, ?_⟩
  · simp only [report', sameApi]
  · simp only [report', ← resolved, List.length_map]
  · simp only [report', ← resolved, List.length_map]
  · simp only [report', extensions]
  · simp only [report', reachedName]
  · simp only [report', reachedName]

/-- A replay fails exactly when there are chains and none of them resolves, and then with a
mismatch that counts the chains. -/
theorem replay_eq_error_iff {s : Search} {chains : List SeedChain} {f : Fault} :
    s.replay chains = .error f ↔
      f = .seedsOutsideCatalog chains.length ∧ chains ≠ [] ∧ s.api.resolveChains chains = [] := by
  unfold Search.replay
  extract_lets resolve kept frequency
  obtain ⟨-, idsKept⟩ := filterMap_pair resolve chains
  have keptEmpty : kept = [] ↔ s.api.resolveChains chains = [] := by
    rw [← (show kept.map Prod.snd = s.api.resolveChains chains from idsKept), List.map_eq_nil_iff]
  split
  · rename_i foreign
    simp only [Bool.and_eq_true, Bool.not_eq_true', List.isEmpty_eq_false_iff, List.isEmpty_iff]
      at foreign
    rw [← keptEmpty]
    constructor
    · intro failed
      cases failed
      exact ⟨rfl, foreign.1, foreign.2⟩
    · rintro ⟨rfl, -⟩
      rfl
  · rename_i resolving
    constructor
    · intro failed
      split at failed
      cases failed
    · rintro ⟨-, nonempty, none⟩
      simp [nonempty, keptEmpty.mpr none] at resolving

/-- Pushing sequences changes only the pool and the visits. -/
theorem pushAll_frame (t : Search) (qs : List Sequence) :
    t.pushAll qs = { t with pool := (t.pushAll qs).pool, visited := (t.pushAll qs).visited } := by
  induction qs generalizing t with
  | nil => rfl
  | cons q rest ih =>
    show (t.push q).pushAll rest = _
    rw [ih (t.push q)]
    rfl

/-- Seed replay is atomic: it fails, with a mismatch, exactly when there are chains and none
resolves, giving back no search; a success sets only the pool and visits, whatever they were. -/
theorem replay_atomic (s : Search) (chains : List SeedChain) :
    ((∃ f, s.replay chains = .error f ∧ f.code = .configMismatch) ↔
        chains ≠ [] ∧ ∀ c ∈ chains, ∃ name ∈ c.functions, s.api.catalog.find? name = none) ∧
      (∀ f, s.replay chains = .error f → f = .seedsOutsideCatalog chains.length) ∧
      (∀ report s', s.replay chains = .ok (report, s') →
        s' = { s with pool := s'.pool, visited := s'.visited }) ∧
      ∀ pool visited, ({ s with pool, visited } : Search).replay chains = s.replay chains := by
  refine ⟨⟨?_, ?_⟩, fun f failed => (replay_eq_error_iff.mp failed).1,
    fun report s' replayed => ?_, fun pool visited => rfl⟩
  · rintro ⟨f, failed, -⟩
    obtain ⟨-, nonempty, none⟩ := replay_eq_error_iff.mp failed
    exact ⟨nonempty, Api.resolveChains_eq_nil_iff.mp none⟩
  · rintro ⟨nonempty, foreign⟩
    exact ⟨_, replay_eq_error_iff.mpr ⟨rfl, nonempty, Api.resolveChains_eq_nil_iff.mpr foreign⟩, rfl⟩
  · rw [(Replayed.of_replay replayed).search_eq, pushAll_frame]
    rfl

namespace Replayed

variable {s s' : Search} {chains : List SeedChain} {report : ReplayReport}

theorem pool_eq (replayed : Replayed s chains report s') :
    s'.pool.toList = (s.api.resolveChains chains).flatMap (s.api.extensionsFrom {}) := by
  rw [replayed.search_eq, pool_pushAll]
  rfl

/-- The pool holds, chain after chain, the replays of each resolved chain's first 1, 2, …
functions up to its longest admissible prefix. -/
theorem pool_prefixes (replayed : Replayed s chains report s') :
    s'.pool.toList.map some = (s.api.resolveChains chains).flatMap fun ids =>
      (List.range (s.api.admissibleLength ids)).map fun k => s.api.replay? (ids.take (k + 1)) := by
  rw [replayed.pool_eq, List.map_flatMap]
  simp only [Api.extensionsFrom_eq_replays]

theorem sequencesAdded_eq_size (replayed : Replayed s chains report s') :
    report.sequencesAdded = s'.pool.size := by
  rw [replayed.sequencesAdded_eq, ← Array.length_toList, replayed.pool_eq]

theorem chains_length (replayed : Replayed s chains report s') :
    report.chainsReplayed + report.chainsDropped = chains.length := by
  have kept : (s.api.resolveChains chains).length ≤ chains.length := List.length_filterMap_le _ _
  rw [replayed.chainsReplayed_eq, replayed.chainsDropped_eq]
  omega

/-- A function admitted in a resolved chain is a function of the catalog. -/
theorem lt_size_of_admitted {ids : List Nat} (resolved : ids ∈ s.api.resolveChains chains) {f : Nat}
    (admitted : f ∈ s.api.admittedIn ids) : f < s.api.size := by
  obtain ⟨-, -, -, name, -, found⟩ :=
    Api.mem_resolveChains resolved (List.mem_of_mem_take admitted)
  exact (Catalog.find?_eq_some_sig found).1

/-- The visited functions are exactly those admitted in some resolved chain. -/
theorem visited_iff (replayed : Replayed s chains report s') (f : Nat) :
    s'.visited.getD f false = true ↔
      ∃ ids ∈ s.api.resolveChains chains, f ∈ ids.take (s.api.admissibleLength ids) := by
  -- an empty pool with nothing visited marks the last functions of its sequences
  have start : (s.clearPool.resetVisited).Marked :=
    ⟨Array.size_replicate, fun f => by
      show (Array.replicate _ false).getD f false = true ↔ ∃ q ∈ ([] : List Sequence), _
      rw [getD_replicate_false]
      simp⟩
  have within : ∀ q ∈ (s.api.resolveChains chains).flatMap (s.api.extensionsFrom {}),
      ∀ f, q.lastFn? = some f → f < (s.clearPool.resetVisited).api.size := by
    intro q pooled f last
    obtain ⟨ids, resolved, extension⟩ := List.mem_flatMap.mp pooled
    exact lt_size_of_admitted resolved (Api.lastFn?_mem_extensionsFrom.mp ⟨q, extension, last⟩)
  have marked := start.pushAll within
  rw [← replayed.search_eq] at marked
  rw [marked.visited_iff, replayed.pool_eq]
  simp only [List.mem_flatMap, ← Api.admittedIn_eq_take]
  constructor
  · rintro ⟨q, ⟨ids, resolved, extension⟩, last⟩
    exact ⟨ids, resolved, Api.lastFn?_mem_extensionsFrom.mp ⟨q, extension, last⟩⟩
  · rintro ⟨ids, resolved, admitted⟩
    obtain ⟨q, extension, last⟩ := Api.lastFn?_mem_extensionsFrom.mpr admitted
    exact ⟨q, ⟨ids, resolved, extension⟩, last⟩

theorem keys_sorted (replayed : Replayed s chains report s') :
    (report.corpusFrequency.map (·.1)).Pairwise (· < ·) :=
  List.pairwise_map.mpr replayed.counts.sorted

theorem covered_sorted (replayed : Replayed s chains report s') : report.covered.Pairwise (· < ·) := by
  rw [replayed.covered_eq]
  exact replayed.keys_sorted.filter _

theorem uncovered_sorted (replayed : Replayed s chains report s') :
    report.uncovered.Pairwise (· < ·) := by
  rw [replayed.uncovered_eq]
  exact replayed.keys_sorted.filter _

theorem not_mem_uncovered (replayed : Replayed s chains report s') {name : String}
    (covered : name ∈ report.covered) : name ∉ report.uncovered := by
  rw [replayed.covered_eq, List.mem_filter] at covered
  rw [replayed.uncovered_eq, List.mem_filter]
  simp [covered.2]

/-- Covered and uncovered names together are the names of the resolved chains. -/
theorem mem_covered_or_uncovered (replayed : Replayed s chains report s') (name : String) :
    name ∈ report.covered ∨ name ∈ report.uncovered ↔ name ∈ s.api.corpusNames chains := by
  rw [replayed.covered_eq, replayed.uncovered_eq, List.mem_filter, List.mem_filter,
    ← replayed.counts.mem_iff]
  cases s.api.admittedName chains name <;> simp

/-- The covered names are those of the functions admitted in some resolved chain. -/
theorem mem_covered_iff (replayed : Replayed s chains report s') (name : String) :
    name ∈ report.covered ↔ ∃ ids ∈ s.api.resolveChains chains,
      ∃ f ∈ ids.take (s.api.admissibleLength ids), (s.api.catalog.sig f).name = name := by
  rw [replayed.covered_eq, List.mem_filter, replayed.counts.mem_iff]
  simp only [← Api.admittedIn_eq_take]
  constructor
  · rintro ⟨-, admitted⟩
    unfold Api.admittedName at admitted
    split at admitted
    · rename_i f found
      obtain ⟨ids, resolved, member⟩ := List.mem_flatMap.mp (List.contains_iff_mem.mp admitted)
      exact ⟨ids, resolved, f, member, (Catalog.find?_eq_some_sig found).2⟩
    · cases admitted
  · rintro ⟨ids, resolved, f, admitted, named⟩
    -- the chain names the function by its own name, so the name resolves to it
    obtain ⟨c, chain, resolves, name', member, found⟩ :=
      Api.mem_resolveChains resolved (List.mem_of_mem_take admitted)
    obtain rfl : name' = name := (Catalog.find?_eq_some_sig found).2.symm.trans named
    refine ⟨List.mem_flatMap.mpr ⟨c, List.mem_filter.mpr ⟨chain, resolves⟩, member⟩, ?_⟩
    simp only [Api.admittedName, found]
    exact List.contains_iff_mem.mpr (List.mem_flatMap.mpr ⟨ids, resolved, admitted⟩)

/-- The functions the corpus never names are those beyond its distinct names. -/
theorem notInCorpus_eq (replayed : Replayed s chains report s') :
    report.notInCorpus = s.api.size - (s.api.corpusNames chains).toFinset.card := by
  rw [ReplayReport.notInCorpus, replayed.totalFunctions_eq, replayed.counts.length_eq_card]

end Replayed

/-- A successful seed replay pools, chain by resolved chain, the replay of each prefix of its
longest admissible prefix; its report counts them and the chains, and splits the names by whether
a function of the name was admitted. -/
theorem replay_pools_prefixes {s s' : Search} {chains : List SeedChain} {report : ReplayReport}
    (replayed : s.replay chains = .ok (report, s')) :
    s'.pool.toList.map some = (s.api.resolveChains chains).flatMap (fun ids =>
        (List.range (s.api.admissibleLength ids)).map fun k => s.api.replay? (ids.take (k + 1))) ∧
      report.sequencesAdded = s'.pool.size ∧
      report.chainsReplayed + report.chainsDropped = chains.length ∧
      (∀ f, s'.visited.getD f false = true ↔
        ∃ ids ∈ s.api.resolveChains chains, f ∈ ids.take (s.api.admissibleLength ids)) ∧
      report.covered.Pairwise (· < ·) ∧ report.uncovered.Pairwise (· < ·) ∧
      (∀ name ∈ report.covered, name ∉ report.uncovered) ∧
      (∀ name, name ∈ report.covered ∨ name ∈ report.uncovered ↔
        name ∈ s.api.corpusNames chains) ∧
      (∀ name, name ∈ report.covered ↔ ∃ ids ∈ s.api.resolveChains chains,
        ∃ f ∈ ids.take (s.api.admissibleLength ids), (s.api.catalog.sig f).name = name) ∧
      report.notInCorpus = s.api.size - (s.api.corpusNames chains).toFinset.card := by
  have spec := Replayed.of_replay replayed
  exact ⟨spec.pool_prefixes, spec.sequencesAdded_eq_size, spec.chains_length, spec.visited_iff,
    spec.covered_sorted, spec.uncovered_sorted, fun _ => spec.not_mem_uncovered,
    spec.mem_covered_or_uncovered, spec.mem_covered_iff, spec.notInCorpus_eq⟩

end Search

/-- `connect` opens a `Conn`, `login` turns a `Conn` into a `Session`, and `query` takes a `Conn`
and a `Session`. -/
def sessionCatalog : Catalog where
  entries := #[
    ⟨{ name := "connect", output := some (.path "Conn" [] false) }, false, false⟩,
    ⟨{ name := "login", params := [.path "Conn" [] false], output := some (.path "Session" [] false) },
      false, false⟩,
    ⟨{ name := "query", params := [.path "Conn" [] false, .path "Session" [] false] }, false, false⟩]

/-- A corpus over `sessionCatalog`: `query` is refused after `connect, login` (the `Conn` went to
`login`), `query` alone is refused at once, a chain with `logout` is dropped, and an empty chain
resolves. -/
def sessionSeeds : List SeedChain :=
  [⟨["connect", "login", "query"], 1⟩, ⟨["query", "connect"], 1⟩, ⟨["connect", "logout"], 1⟩,
    ⟨[], 1⟩]

/-- The search over `sessionCatalog` before the replay. -/
def sessionSearch : Search := Search.new (Api.ofCatalog sessionCatalog) {}

/-- The report and the search that replaying `sessionSeeds` gives. -/
def sessionReplay : ReplayReport × Search :=
  (sessionSearch.replay sessionSeeds).toOption.getD default

-- A computation that succeeds returns the value it holds.
theorem eq_ok_of_isOk {ε α : Type} [Inhabited α] {r : Except ε α} (succeeded : r.isOk = true) :
    r = .ok (r.toOption.getD default) := by
  cases r with
  | error e => cases succeeded
  | ok a => rfl

theorem sessionSeeds_replay_pools_prefixes :
    sessionSearch.replay sessionSeeds = .ok (sessionReplay.1, sessionReplay.2) ∧
      sessionReplay.2.pool.toList.map some =
        (sessionSearch.api.resolveChains sessionSeeds).flatMap (fun ids =>
          (List.range (sessionSearch.api.admissibleLength ids)).map fun k =>
            sessionSearch.api.replay? (ids.take (k + 1))) ∧
      sessionReplay.1.sequencesAdded = sessionReplay.2.pool.size ∧
      sessionReplay.1.chainsReplayed + sessionReplay.1.chainsDropped = sessionSeeds.length ∧
      (∀ f, sessionReplay.2.visited.getD f false = true ↔
        ∃ ids ∈ sessionSearch.api.resolveChains sessionSeeds,
          f ∈ ids.take (sessionSearch.api.admissibleLength ids)) ∧
      sessionReplay.1.covered.Pairwise (· < ·) ∧ sessionReplay.1.uncovered.Pairwise (· < ·) ∧
      (∀ name ∈ sessionReplay.1.covered, name ∉ sessionReplay.1.uncovered) ∧
      (∀ name, name ∈ sessionReplay.1.covered ∨ name ∈ sessionReplay.1.uncovered ↔
        name ∈ sessionSearch.api.corpusNames sessionSeeds) ∧
      (∀ name, name ∈ sessionReplay.1.covered ↔
        ∃ ids ∈ sessionSearch.api.resolveChains sessionSeeds,
          ∃ f ∈ ids.take (sessionSearch.api.admissibleLength ids),
            (sessionSearch.api.catalog.sig f).name = name) ∧
      sessionReplay.1.notInCorpus =
        sessionSearch.api.size - (sessionSearch.api.corpusNames sessionSeeds).toFinset.card := by
  have succeeded : (sessionSearch.replay sessionSeeds).isOk = true := by decide +kernel
  have replayed : sessionSearch.replay sessionSeeds = .ok (sessionReplay.1, sessionReplay.2) :=
    eq_ok_of_isOk succeeded
  exact ⟨replayed, Search.replay_pools_prefixes replayed⟩

/-- The chain `connect, login, query` is cut at `query`, so two sequences are pooled; `query` is
named but never admitted, and every catalog function is in the corpus. -/
example :
    sessionReplay.1.covered = ["connect", "login"] ∧ sessionReplay.1.uncovered = ["query"] ∧
      sessionReplay.1.sequencesAdded = 2 ∧ sessionReplay.1.chainsDropped = 1 ∧
      sessionReplay.1.notInCorpus = 0 := by
  decide +kernel

end DriverSynth
