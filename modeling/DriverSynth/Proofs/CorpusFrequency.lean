import DriverSynth.Proofs.SeedReplay
import Mathlib

/-! # Corpus frequencies

Seed replay adds up, for every name of the chains it keeps, the frequency of the chain at each
occurrence of the name (`Api.corpusTotal`). It adds in signed 64-bit words and tests no bound, so
the report holds the integer total wrapped into the signed 64-bit range; that is the total
itself exactly when the total fits (`Search.corpusFrequency_eq_total`). Reading a corpus only
asks frequencies to be positive, and two chains of the largest frequency already wrap to `-2`
(`overflowSeeds_corpusFrequency_wraps`).

The counts are kept sorted by name, so a lookup sees one entry per name, and adding a frequency
changes the entry of its name alone (`lookup_addFrequency`).
-/

namespace DriverSynth

section Lookup

variable {counts : List (String × Int64)}

theorem lookup_eq_none_of_lt {k : String} (below : ∀ p ∈ counts, k < p.1) :
    counts.lookup k = none := by
  induction counts with
  | nil => rfl
  | cons p rest ih =>
    obtain ⟨key, v⟩ := p
    have other : k ≠ key := String.ne_of_lt (below (key, v) List.mem_cons_self)
    rw [List.lookup_cons, beq_false_of_ne other]
    exact ih fun p member => below p (List.mem_cons_of_mem _ member)

/-- Adding a frequency to counts sorted by name adds it to the entry of its name, which starts
from zero, and leaves every other entry as it was. -/
theorem lookup_addFrequency (sorted : counts.Pairwise (·.1 < ·.1)) (name k : String) (f : Int64) :
    (addFrequency name f counts).lookup k =
      if k = name then some ((counts.lookup k).getD 0 + f) else counts.lookup k := by
  induction counts with
  | nil =>
    by_cases same : k = name
    · simp [addFrequency, same]
    · simp [addFrequency, List.lookup_cons, beq_false_of_ne same, same]
  | cons p rest ih =>
    obtain ⟨key, v⟩ := p
    obtain ⟨above, tailSorted⟩ := List.pairwise_cons.mp sorted
    unfold addFrequency
    split
    · -- the name goes first, before every key of the counts
      rename_i below
      by_cases same : k = name
      · subst same
        have absent : ((key, v) :: rest).lookup k = none := by
          refine lookup_eq_none_of_lt fun p member => ?_
          rcases List.mem_cons.mp member with rfl | later
          · exact below
          · exact String.lt_trans below (above p later)
        simp [absent]
      · simp [List.lookup_cons, beq_false_of_ne same, same]
    · split
      · -- the name is the first key: its entry grows
        rename_i same
        subst same
        by_cases hk : k = name
        · simp [hk]
        · simp [List.lookup_cons, beq_false_of_ne hk, hk]
      · -- the name comes later: the first entry stays and the rest takes the frequency
        rename_i notBelow notSame
        by_cases hk : k = key
        · subst hk
          have other : k ≠ name := Ne.symm notSame
          simp [other]
        · simp [List.lookup_cons, beq_false_of_ne hk, ih tailSorted]

end Lookup

/-- The integer sum of the frequencies of the occurrences of `name` in `occ`. -/
def occurrenceTotal (occ : List (String × Int64)) (name : String) : Int :=
  ((occ.filter (·.1 == name)).map (·.2.toInt)).sum

theorem occurrenceTotal_append_single (occ : List (String × Int64)) (name k : String)
    (f : Int64) :
    occurrenceTotal (occ ++ [(name, f)]) k =
      occurrenceTotal occ k + if k = name then f.toInt else 0 := by
  by_cases same : k = name
  · subst same
    simp [occurrenceTotal, List.filter_append]
  · have other : (name == k) = false := by simpa using Ne.symm same
    simp [occurrenceTotal, List.filter_append, other, same]

theorem occurrenceTotal_eq_zero {occ : List (String × Int64)} {k : String}
    (absent : k ∉ occ.map (·.1)) : occurrenceTotal occ k = 0 := by
  have none : occ.filter (·.1 == k) = [] := by
    refine List.filter_eq_nil_iff.mpr fun p member same => absent ?_
    rw [beq_iff_eq] at same
    exact List.mem_map.mpr ⟨p, member, same⟩
  simp [occurrenceTotal, none]

/-- Adding the frequencies of occurrences one after the other, from no counts, gives for each
name that occurs the integer total of its frequencies wrapped into the signed 64-bit range, and
nothing for the others. -/
theorem lookup_foldl_addFrequency (occ : List (String × Int64)) (k : String) :
    ((occ.foldl (fun acc p => addFrequency p.1 p.2 acc) []).lookup k).map Int64.toInt =
      if k ∈ occ.map (·.1) then some ((occurrenceTotal occ k).bmod (2 ^ 64)) else none := by
  -- the counts stay sorted, and each name's entry follows its running total
  refine (foldl_prefix_invariant (fun (done acc : List (String × Int64)) =>
      acc.Pairwise (·.1 < ·.1) ∧ ∀ k, (acc.lookup k).map Int64.toInt =
        if k ∈ done.map (·.1) then some ((occurrenceTotal done k).bmod (2 ^ 64)) else none)
    ⟨List.Pairwise.nil, fun _ => by simp⟩ ?_ rfl).2 k
  rintro done ⟨name, f⟩ - acc - ⟨sorted, entries⟩
  refine ⟨addFrequency_sorted sorted, fun k => ?_⟩
  rw [lookup_addFrequency sorted, occurrenceTotal_append_single]
  by_cases same : k = name
  · subst same
    by_cases seen : k ∈ done.map (·.1)
    · -- an entry already holds the wrapped running total
      obtain ⟨v, found, wrapped⟩ : ∃ v, acc.lookup k = some v ∧
          v.toInt = (occurrenceTotal done k).bmod (2 ^ 64) := by
        have entry := entries k
        rw [if_pos seen] at entry
        obtain ⟨v, found, wrapped⟩ := Option.map_eq_some_iff.mp entry
        exact ⟨v, found, wrapped⟩
      simp [found, Int64.toInt_add, wrapped, Int.bmod_add_bmod]
    · -- the first occurrence starts the entry from zero
      have absent : acc.lookup k = none := by simpa [seen] using entries k
      simp [absent, occurrenceTotal_eq_zero seen]
  · simp [entries k, same]

namespace Api

/-- Every occurrence of a name in the chains whose names all resolve, with the frequency of its
chain, in order. -/
def corpusOccurrences (api : Api) (chains : List SeedChain) : List (String × Int64) :=
  (chains.filter fun chain => (chain.functions.mapM api.catalog.find?).isSome).flatMap
    fun chain => chain.functions.map (·, chain.frequency)

/-- The sum over the integers of the frequency of the chain at every occurrence of `name` in the
chains whose names all resolve. -/
def corpusTotal (api : Api) (chains : List SeedChain) (name : String) : Int :=
  occurrenceTotal (api.corpusOccurrences chains) name

theorem map_fst_corpusOccurrences (api : Api) (chains : List SeedChain) :
    (api.corpusOccurrences chains).map (·.1) = api.corpusNames chains := by
  simp [corpusOccurrences, corpusNames, List.map_flatMap, Function.comp_def]

/-- With positive frequencies, a total is not negative. -/
theorem corpusTotal_nonneg {api : Api} {chains : List SeedChain}
    (positive : ∀ c ∈ chains, 0 < c.frequency.toInt) (name : String) :
    0 ≤ api.corpusTotal chains name := by
  refine List.sum_nonneg fun x member => ?_
  obtain ⟨p, kept, rfl⟩ := List.mem_map.mp member
  obtain ⟨chain, resolved, occurs⟩ := List.mem_flatMap.mp (List.mem_filter.mp kept).1
  obtain ⟨n, -, rfl⟩ := List.mem_map.mp occurs
  exact (positive chain (List.mem_filter.mp resolved).1).le

end Api

namespace Search

variable {s s' : Search} {chains : List SeedChain} {report : ReplayReport}

/-- The counts of a successful replay add the frequencies of the occurrences, in order. -/
theorem corpusFrequency_eq_foldl (replayed : s.replay chains = .ok (report, s')) :
    report.corpusFrequency =
      (s.api.corpusOccurrences chains).foldl (fun acc p => addFrequency p.1 p.2 acc) [] := by
  unfold Search.replay at replayed
  extract_lets resolve kept frequency at replayed
  split at replayed
  · cases replayed
  split at replayed
  obtain ⟨rfl, -⟩ := Prod.mk.inj (Except.ok.inj replayed)
  -- the kept chains, without their ids, are the chains that resolve
  have chainsKept : kept.map Prod.fst =
      chains.filter fun chain => (chain.functions.mapM s.api.catalog.find?).isSome :=
    (filterMap_pair resolve chains).1
  rw [Api.corpusOccurrences, ← chainsKept, List.foldl_flatMap, List.foldl_map]
  simp only [List.foldl_map]
  rfl

/-- A successful seed replay reports, for each name of a resolved chain, the total of its
frequencies wrapped into the signed 64-bit range, and nothing for other names. -/
theorem corpusFrequency_eq_total (replayed : s.replay chains = .ok (report, s')) (name : String) :
    (report.corpusFrequency.lookup name).map Int64.toInt =
        (if name ∈ s.api.corpusNames chains then
          some ((s.api.corpusTotal chains name).bmod (2 ^ 64)) else none) ∧
      ((∀ c ∈ chains, 0 < c.frequency.toInt) → s.api.corpusTotal chains name < 2 ^ 63 →
        (report.corpusFrequency.lookup name).map Int64.toInt =
          if name ∈ s.api.corpusNames chains then some (s.api.corpusTotal chains name) else none) := by
  have wrapped : (report.corpusFrequency.lookup name).map Int64.toInt =
      if name ∈ s.api.corpusNames chains then
        some ((s.api.corpusTotal chains name).bmod (2 ^ 64)) else none := by
    rw [corpusFrequency_eq_foldl replayed, lookup_foldl_addFrequency,
      Api.map_fst_corpusOccurrences]
    rfl
  refine ⟨wrapped, fun positive fits => ?_⟩
  -- a total in the signed range is its own reduction
  have nonneg : 0 ≤ s.api.corpusTotal chains name := Api.corpusTotal_nonneg positive name
  have inRange : (s.api.corpusTotal chains name).bmod (2 ^ 64) = s.api.corpusTotal chains name :=
    Int.bmod_eq_of_le (by omega) (by omega)
  rw [wrapped, inRange]

end Search

/-- A catalog of one function, `tick`. -/
def tickCatalog : Catalog where
  entries := #[⟨{ name := "tick" }, false, false⟩]

/-- The search over `tickCatalog` before a replay. -/
def tickSearch : Search := Search.new (Api.ofCatalog tickCatalog) {}

/-- A corpus that calls `tick` twice in a chain seen three times, and once in a chain seen four
times. -/
def tallySeeds : List SeedChain := [⟨["tick", "tick"], 3⟩, ⟨["tick"], 4⟩]

/-- The report and the search that replaying `tallySeeds` gives. -/
def tallyReplay : ReplayReport × Search := (tickSearch.replay tallySeeds).toOption.getD default

theorem tallySeeds_corpusFrequency_eq_total :
    tickSearch.replay tallySeeds = .ok (tallyReplay.1, tallyReplay.2) ∧
      (∀ c ∈ tallySeeds, 0 < c.frequency.toInt) ∧
      tickSearch.api.corpusTotal tallySeeds "tick" < 2 ^ 63 ∧
      (tallyReplay.1.corpusFrequency.lookup "tick").map Int64.toInt =
        if "tick" ∈ tickSearch.api.corpusNames tallySeeds then
          some (tickSearch.api.corpusTotal tallySeeds "tick") else none := by
  have succeeded : (tickSearch.replay tallySeeds).isOk = true := by decide +kernel
  have replayed := eq_ok_of_isOk succeeded
  have positive : ∀ c ∈ tallySeeds, 0 < c.frequency.toInt := by decide
  have fits : tickSearch.api.corpusTotal tallySeeds "tick" < 2 ^ 63 := by decide +kernel
  exact ⟨replayed, positive, fits,
    (Search.corpusFrequency_eq_total replayed "tick").2 positive fits⟩

/-- Two chains that call `tick` once, each seen `2^63 - 1` times, the largest frequency a corpus
may give. -/
def overflowSeeds : List SeedChain :=
  [⟨["tick"], 9223372036854775807⟩, ⟨["tick"], 9223372036854775807⟩]

/-- Replaying `overflowSeeds` reports `-2` for `tick`, while its frequencies add up to
`2^64 - 2`: the sum wraps. -/
theorem overflowSeeds_corpusFrequency_wraps :
    ((tickSearch.replay overflowSeeds).toOption.map fun r =>
        (r.1.corpusFrequency.lookup "tick").map Int64.toInt) = some (some (-2)) ∧
      tickSearch.api.corpusTotal overflowSeeds "tick" = 18446744073709551614 := by
  decide +kernel

end DriverSynth
