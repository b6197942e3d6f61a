import DriverSynth.Proofs.CatalogBuild
import Mathlib.Data.List.Nodup

/-! # Catalogs along any run

Along any run of adds and convention changes (`Catalog.run`), a catalog is determined by its
policy, the conventions set last and the signatures whose adds succeeded (`Catalog.Tracks`). Each
function is its signature with the unbound generics bound to the policy, marked by the last
conventions, so a run ends in the same catalog whether its conventions are set before or after
its adds. Main statement: `Catalog.run_tracks_admitted`.
-/

namespace DriverSynth

namespace Bindings

theorem lookup?_cons (k : String) (v : Ty) (rest : Bindings) (name : String) :
    lookup? ((k, v) :: rest) name = if k = name then some v else lookup? rest name := by
  by_cases same : k = name <;> simp [lookup?, same]

/-- A name below every bound name is not bound. -/
theorem lookup?_of_below {name : String} {bindings : Bindings}
    (below : ∀ b ∈ bindings, name < b.1) : bindings.lookup? name = none := by
  induction bindings with
  | nil => rfl
  | cons b rest ih =>
    obtain ⟨k, v⟩ := b
    rw [lookup?_cons, if_neg (String.ne_of_lt (below (k, v) List.mem_cons_self)).symm]
    exact ih fun b member => below b (List.mem_cons_of_mem _ member)

/-- Binding a name into sorted bindings keeps the type of every bound name, and gives the name
the new type when it was not bound. -/
theorem lookup?_insert {name : String} {ty : Ty} {bindings : Bindings} (sorted : bindings.Sorted)
    (g : String) :
    (insert name ty bindings).lookup? g =
      (bindings.lookup? g).or (if name = g then some ty else none) := by
  induction bindings with
  | nil => by_cases same : name = g <;> simp [insert, same, lookup?]
  | cons b rest ih =>
    obtain ⟨k, v⟩ := b
    obtain ⟨above, restSorted⟩ := List.pairwise_cons.mp sorted
    unfold insert
    split
    · -- the name goes first, so it was bound nowhere
      rename_i below
      by_cases same : name = g
      · subst same
        have absent : lookup? ((k, v) :: rest) name = none := by
          refine lookup?_of_below fun b member => ?_
          rcases List.mem_cons.mp member with rfl | member
          · exact below
          · exact String.lt_trans below (above b member)
        simp [lookup?_cons, absent]
      · simp [lookup?_cons, same]
    · split
      · -- the name is bound already, to the type it keeps
        rename_i same
        subst same
        by_cases hit : name = g <;> simp [lookup?_cons, hit]
      · rw [lookup?_cons, lookup?_cons, ih restSorted]
        by_cases hit : k = g <;> simp [hit]

/-- Adding bindings in order to sorted ones: a name keeps its type when it has one, and otherwise
takes the first type added for it. -/
theorem lookup?_insertAll {bindings : Bindings} (sorted : bindings.Sorted)
    (more : List (String × Ty)) (g : String) :
    (insertAll bindings more).lookup? g = (bindings.lookup? g).or (lookup? more g) := by
  induction more generalizing bindings with
  | nil => simp [insertAll, lookup?]
  | cons b more ih =>
    obtain ⟨k, v⟩ := b
    rw [insertAll_cons, ih (insert_sorted sorted), lookup?_insert sorted, lookup?_cons,
      Option.or_assoc]
    by_cases hit : k = g <;> simp [hit]

/-- Binding every generic to one type binds exactly the generics, to that type. -/
theorem lookup?_map_generics (generics : List String) (policy : Ty) (g : String) :
    lookup? (generics.map (·, policy)) g = if g ∈ generics then some policy else none := by
  induction generics with
  | nil => rfl
  | cons x rest ih =>
    rw [List.map_cons, lookup?_cons, ih]
    by_cases hit : x = g
    · simp [hit]
    · simp [hit, Ne.symm hit]

end Bindings

namespace Signature

/-- The signature a catalog keeps of a given one: its generics not bound already bound to the
policy. -/
def resolve (policy : Ty) (sig : Signature) : Signature :=
  { sig with bindings := sig.bindings.insertAll (sig.generics.map (·, policy)) }

@[simp] theorem name_resolve (policy : Ty) (sig : Signature) : (sig.resolve policy).name = sig.name :=
  rfl

/-- What a catalog keeps of a given signature: all of it but the bindings, and bindings sorted by
name that keep every given binding and bind each other generic to the policy. -/
structure Resolves (policy : Ty) (given kept : Signature) : Prop where
  same : { kept with bindings := given.bindings } = given
  sorted : kept.bindings.Sorted
  lookup : ∀ g, kept.bindings.lookup? g =
    (given.bindings.lookup? g).or (if g ∈ given.generics then some policy else none)

/-- The bindings given win over the policy. -/
theorem resolves_resolve (policy : Ty) {sig : Signature} (sorted : sig.bindings.Sorted) :
    Resolves policy sig (sig.resolve policy) where
  same := rfl
  sorted := Bindings.insertAll_sorted sorted
  lookup g := by rw [resolve, Bindings.lookup?_insertAll sorted, Bindings.lookup?_map_generics]

end Signature

namespace Catalog

/-- An operation on a catalog: adding a function, or setting the conventions. -/
inductive Op where
  | add (sig : Signature)
  | setConventions (conv : Conventions)

/-- Whether an operation adds a function. -/
def Op.isAdd : Op → Bool
  | .add _ => true
  | .setConventions _ => false

/-- An operation applied to a catalog; an add that is refused leaves the catalog as it was. -/
def apply (c : Catalog) : Op → Catalog
  | .add sig =>
    match c.add sig with
    | .ok (_, c') => c'
    | .error _ => c
  | .setConventions conv => c.setConventions conv

/-- The operations applied in order. -/
def run (c : Catalog) (ops : List Op) : Catalog := ops.foldl apply c

/-- The signatures added, after one more operation: an add is taken when its signature is named,
under a name not taken before. -/
def accept (sigs : List Signature) : Op → List Signature
  | .add sig => if sig.name ≠ "" ∧ sig.name ∉ sigs.map (·.name) then sigs ++ [sig] else sigs
  | .setConventions _ => sigs

/-- The signatures whose adding succeeds along a run, after those of `sigs`. -/
def accepted (sigs : List Signature) (ops : List Op) : List Signature := ops.foldl accept sigs

/-- The conventions in force after one more operation. -/
def conventionsAfter (conv : Conventions) : Op → Conventions
  | .add _ => conv
  | .setConventions conv' => conv'

/-- The conventions set last along a run, or `conv` when none is set. -/
def lastConventions (conv : Conventions) (ops : List Op) : Conventions :=
  ops.foldl conventionsAfter conv

/-- A catalog made of its policy, its conventions and the signatures added: each function is its
signature resolved by the policy and marked by the conventions. -/
structure Tracks (policy : Ty) (conv : Conventions) (sigs : List Signature) (c : Catalog) :
    Prop where
  policy_eq : c.policy = policy
  conventions_eq : c.conventions = conv
  entries_eq : c.entries.toList = sigs.map fun sig => conv.mark (sig.resolve policy)

section Tracks

variable {policy : Ty} {conv : Conventions} {sigs : List Signature} {c : Catalog}

theorem tracks_fresh (policy : Ty) : ({ policy } : Catalog).Tracks policy {} [] :=
  ⟨rfl, rfl, rfl⟩

theorem Tracks.names_eq (tracks : c.Tracks policy conv sigs) :
    c.entries.toList.map (·.sig.name) = sigs.map (·.name) := by
  simp [tracks.entries_eq, Conventions.mark]

/-- Every function carries the marks of the conventions. -/
theorem Tracks.marked (tracks : c.Tracks policy conv sigs) {e : Entry}
    (member : e ∈ c.entries.toList) : conv.mark e.sig = e := by
  rw [tracks.entries_eq] at member
  obtain ⟨sig, -, rfl⟩ := List.mem_map.mp member
  rfl

/-- Policy, conventions and signatures determine the catalog. -/
theorem Tracks.unique (tracks : c.Tracks policy conv sigs) {c' : Catalog}
    (tracks' : c'.Tracks policy conv sigs) : c = c' := by
  have samePolicy : c.policy = c'.policy := tracks.policy_eq.trans tracks'.policy_eq.symm
  have sameConventions : c.conventions = c'.conventions :=
    tracks.conventions_eq.trans tracks'.conventions_eq.symm
  have sameEntries : c.entries = c'.entries :=
    Array.toList_inj.mp (tracks.entries_eq.trans tracks'.entries_eq.symm)
  cases c
  cases c'
  simp only at samePolicy sameConventions sameEntries
  rw [samePolicy, sameConventions, sameEntries]

/-- One operation keeps the catalog made of its policy, the conventions in force and the
signatures added. -/
theorem Tracks.apply (tracks : c.Tracks policy conv sigs) (op : Op) :
    (c.apply op).Tracks policy (conventionsAfter conv op) (accept sigs op) := by
  cases op with
  | add sig =>
    simp only [Catalog.apply]
    split
    · rename_i id c' added
      obtain ⟨named, fresh, -, rfl⟩ := add_eq_ok added
      rw [tracks.names_eq] at fresh
      simp only [accept, if_pos (And.intro named fresh), conventionsAfter]
      refine ⟨tracks.policy_eq, tracks.conventions_eq, ?_⟩
      simp [tracks.entries_eq, tracks.conventions_eq, tracks.policy_eq, Signature.resolve]
    · rename_i e refused
      -- a named signature under a fresh name would have been added
      have taken : ¬ (sig.name ≠ "" ∧ sig.name ∉ sigs.map (·.name)) := by
        rintro ⟨named, fresh⟩
        rw [← tracks.names_eq] at fresh
        rw [add_of_fresh named fresh] at refused
        cases refused
      simpa only [accept, if_neg taken, conventionsAfter] using tracks
  | setConventions conv' =>
    refine ⟨tracks.policy_eq, rfl, ?_⟩
    simp only [Catalog.apply, Catalog.setConventions, Array.toList_map, tracks.entries_eq,
      List.map_map]
    rfl

/-- A run keeps the catalog made of its policy, the conventions set last and the signatures
whose adding succeeded. -/
theorem Tracks.run (tracks : c.Tracks policy conv sigs) (ops : List Op) :
    (c.run ops).Tracks policy (lastConventions conv ops) (accepted sigs ops) := by
  induction ops generalizing c conv sigs with
  | nil => exact tracks
  | cons op ops ih => exact ih (tracks.apply op)

end Tracks

/-- The signatures taken along a run are named, under distinct names, and each comes from an
add of the run or was taken before it. -/
theorem accepted_named {sigs : List Signature} (named : ∀ sig ∈ sigs, sig.name ≠ "")
    (distinct : (sigs.map (·.name)).Nodup) (ops : List Op) :
    (∀ sig ∈ accepted sigs ops, sig.name ≠ "" ∧ (sig ∈ sigs ∨ Op.add sig ∈ ops)) ∧
      ((accepted sigs ops).map (·.name)).Nodup := by
  induction ops generalizing sigs with
  | nil => exact ⟨fun sig member => ⟨named sig member, .inl member⟩, distinct⟩
  | cons op ops ih =>
    have step : (∀ sig ∈ accept sigs op, sig.name ≠ "" ∧ (sig ∈ sigs ∨ op = Op.add sig)) ∧
        ((accept sigs op).map (·.name)).Nodup := by
      cases op with
      | add sig =>
        by_cases fresh : sig.name ≠ "" ∧ sig.name ∉ sigs.map (·.name)
        · simp only [accept, if_pos fresh]
          have nodup : (sigs.map (·.name) ++ [sig.name]).Nodup :=
            distinct.append (List.nodup_singleton _) (List.disjoint_singleton.mpr fresh.2)
          refine ⟨?_, by simpa using nodup⟩
          intro sig' member
          rcases List.mem_append.mp member with old | new
          · exact ⟨named sig' old, .inl old⟩
          · rw [List.mem_singleton.mp new]
            exact ⟨fresh.1, .inr rfl⟩
        · simp only [accept, if_neg fresh]
          exact ⟨fun sig' member => ⟨named sig' member, .inl member⟩, distinct⟩
      | setConventions conv => exact ⟨fun sig' member => ⟨named sig' member, .inl member⟩, distinct⟩
    obtain ⟨later, nodup⟩ := ih (fun sig member => (step.1 sig member).1) step.2
    refine ⟨fun sig member => ⟨(later sig member).1, ?_⟩, nodup⟩
    rcases (later sig member).2 with earlier | added
    · rcases (step.1 sig earlier).2 with old | rfl
      · exact .inl old
      · exact .inr List.mem_cons_self
    · exact .inr (List.mem_cons_of_mem _ added)

/-- Setting the conventions takes no signature. -/
theorem accepted_filter_isAdd (sigs : List Signature) (ops : List Op) :
    accepted sigs (ops.filter Op.isAdd) = accepted sigs ops := by
  induction ops generalizing sigs with
  | nil => rfl
  | cons op ops ih =>
    cases op with
    | add sig =>
      rw [List.filter_cons_of_pos rfl]
      exact ih (accept sigs (.add sig))
    | setConventions conv =>
      rw [List.filter_cons_of_neg (by simp [Op.isAdd])]
      exact ih sigs

theorem lastConventions_filter_isAdd (conv : Conventions) (ops : List Op) :
    lastConventions conv (ops.filter Op.isAdd) = conv := by
  induction ops with
  | nil => rfl
  | cons op ops ih =>
    cases op with
    | add sig => simpa [lastConventions, List.filter_cons, Op.isAdd, conventionsAfter] using ih
    | setConventions conv' => simpa [List.filter_cons, Op.isAdd] using ih

theorem sig_eq_getElem {c : Catalog} {i : Nat} (bound : i < c.entries.size) :
    c.sig i = c.entries[i].sig := by
  simp [sig, bound]

/-- With names apart, the id of a name is the one position that has it. -/
theorem find?_eq_some_iff {c : Catalog} (distinct : (c.entries.toList.map (·.sig.name)).Nodup)
    {name : String} {i : Nat} : c.find? name = some i ↔ i < c.size ∧ (c.sig i).name = name := by
  unfold find?
  rw [Array.findIdx?_eq_some_iff_getElem]
  constructor
  · rintro ⟨bound, found, -⟩
    exact ⟨bound, by rw [sig_eq_getElem bound]; simpa using found⟩
  · rintro ⟨bound, found⟩
    have inEntries : i < c.entries.size := bound
    rw [sig_eq_getElem inEntries] at found
    refine ⟨inEntries, by simpa using found, fun j before same => ?_⟩
    -- an earlier function with the name would share it with the function at `i`
    have jBound : j < c.entries.size := by omega
    have earlier : c.entries[j].sig.name = name := by simpa using same
    have jNamed : j < (c.entries.toList.map (·.sig.name)).length := by simpa using jBound
    have iNamed : i < (c.entries.toList.map (·.sig.name)).length := by simpa using inEntries
    have sameName : (c.entries.toList.map (·.sig.name))[j] =
        (c.entries.toList.map (·.sig.name))[i] := by
      simp only [List.getElem_map, Array.getElem_toList]
      rw [earlier, found]
    have := distinct.getElem_inj_iff.mp sameName
    omega

/-- A refused add: the name is empty, or taken. -/
theorem add_eq_error_iff {c : Catalog} {sig : Signature} {e : Fault} :
    c.add sig = .error e ↔ (sig.name = "" ∧ e = .emptyFunctionName) ∨
      (sig.name ≠ "" ∧ sig.name ∈ c.entries.toList.map (·.sig.name) ∧
        e = .duplicateFunction sig.name) := by
  by_cases named : sig.name = ""
  · have refused : c.add sig = .error .emptyFunctionName := by simp [add, named]
    rw [refused]
    constructor
    · intro same
      cases same
      exact .inl ⟨named, rfl⟩
    · rintro (⟨-, rfl⟩ | ⟨unnamed, -⟩)
      · rfl
      · exact absurd named unnamed
  · by_cases taken : sig.name ∈ c.entries.toList.map (·.sig.name)
    · have present : (c.find? sig.name).isSome := by
        rw [Option.isSome_iff_ne_none]
        intro absent
        exact find?_eq_none.mp absent taken
      have unnamed : sig.name.isEmpty = false := by simpa using named
      have refused : c.add sig = .error (.duplicateFunction sig.name) := by
        simp [add, unnamed, present]
      rw [refused]
      constructor
      · intro same
        cases same
        exact .inr ⟨named, taken, rfl⟩
      · rintro (⟨unnamed, -⟩ | ⟨-, -, rfl⟩)
        · exact absurd unnamed named
        · rfl
    · rw [add_of_fresh named taken]
      simp [named, taken]

/-- A run of adds and convention changes from a fresh catalog keeps the functions whose adds
succeeded, in order, under names of their own and with the marks of the conventions set last; an
add is refused exactly for an empty or taken name, and then changes nothing. -/
theorem run_tracks_admitted (policy : Ty) (ops : List Op)
    (maps : ∀ sig, Op.add sig ∈ ops → sig.bindings.Sorted) :
    let c := ({ policy } : Catalog).run ops
    let conv := lastConventions {} ops
    List.Forall₂ (Signature.Resolves policy) (accepted [] ops) (c.entries.toList.map (·.sig)) ∧
      (∀ e ∈ c.entries.toList, e.sig.name ≠ "") ∧ (c.entries.toList.map (·.sig.name)).Nodup ∧
      (∀ name i, c.find? name = some i ↔ i < c.size ∧ (c.sig i).name = name) ∧
      (∀ (d : Catalog) (sig : Signature) (e : Fault), d.add sig = .error e →
        d.apply (.add sig) = d ∧ ((sig.name = "" ∧ e = .emptyFunctionName) ∨
          (sig.name ≠ "" ∧ sig.name ∈ d.entries.toList.map (·.sig.name) ∧
            e = .duplicateFunction sig.name))) ∧
      (∀ i < c.size, c.isStart i = (conv.mark (c.sig i)).isStart ∧
        c.isEnd i = (conv.mark (c.sig i)).isEnd) ∧
      c = (({ policy } : Catalog).run (ops.filter Op.isAdd)).setConventions conv ∧
      c = (({ policy } : Catalog).setConventions conv).run (ops.filter Op.isAdd) := by
  intro c conv
  have tracks : c.Tracks policy conv (accepted [] ops) := (tracks_fresh policy).run ops
  obtain ⟨taken, distinct⟩ :=
    accepted_named (by simp : ∀ sig ∈ ([] : List Signature), sig.name ≠ "") (by simp) ops
  have names := tracks.names_eq
  refine ⟨?_, ?_, by rw [names]; exact distinct, fun name i => find?_eq_some_iff
    (by rw [names]; exact distinct), fun d sig e refused => ⟨?_, add_eq_error_iff.mp refused⟩,
    ?_, ?_, ?_⟩
  · -- each function resolves its signature
    rw [tracks.entries_eq, List.map_map, List.forall₂_map_right_iff]
    refine List.forall₂_same.mpr fun sig member => ?_
    have sorted := maps sig (((taken sig member).2).resolve_left (by simp))
    exact Signature.resolves_resolve policy sorted
  · intro e member
    rw [tracks.entries_eq] at member
    obtain ⟨sig, admittedSig, rfl⟩ := List.mem_map.mp member
    exact (taken sig admittedSig).1
  · simp [Catalog.apply, refused]
  · -- every entry carries the marks of the last conventions
    intro i bound
    have inEntries : i < c.entries.size := bound
    have member : c.entries[i] ∈ c.entries.toList := Array.getElem_mem_toList inEntries
    have marked := tracks.marked member
    rw [isStart, isEnd, sig_eq_getElem inEntries, Array.getD_eq_getD_getElem?,
      Array.getElem?_eq_getElem inEntries, Option.getD_some, ← marked]
    exact ⟨rfl, rfl⟩
  · have adds := (tracks_fresh policy).run (ops.filter Op.isAdd)
    rw [lastConventions_filter_isAdd, accepted_filter_isAdd] at adds
    -- the adds alone, with the conventions set after them
    exact tracks.unique (adds.apply (.setConventions conv))
  · have adds := ((tracks_fresh policy).apply (.setConventions conv)).run (ops.filter Op.isAdd)
    rw [lastConventions_filter_isAdd, accepted_filter_isAdd] at adds
    exact tracks.unique adds

end Catalog

/-- A run under the policy `u8`: `make` (generic in `T`) is added, the conventions make it a start
and `take` an end, `take` is added, and then `make` again and a nameless function, both refused. -/
def pairRun : List Catalog.Op :=
  [.add { name := "make", output := some (.vec (.generic "T")), generics := ["T"] },
    .setConventions (.fromNames ["make"] ["take"]),
    .add { name := "take", params := [.vec (.prim "u8")] },
    .add { name := "make" },
    .add { name := "" }]

theorem pairRun_tracks_admitted :
    (∀ sig, Catalog.Op.add sig ∈ pairRun → sig.bindings.Sorted) ∧
      let c := ({ policy := .prim "u8" } : Catalog).run pairRun
      let conv := Catalog.lastConventions {} pairRun
      List.Forall₂ (Signature.Resolves (.prim "u8")) (Catalog.accepted [] pairRun)
          (c.entries.toList.map (·.sig)) ∧
        (∀ e ∈ c.entries.toList, e.sig.name ≠ "") ∧ (c.entries.toList.map (·.sig.name)).Nodup ∧
        (∀ name i, c.find? name = some i ↔ i < c.size ∧ (c.sig i).name = name) ∧
        (∀ (d : Catalog) (sig : Signature) (e : Fault), d.add sig = .error e →
          d.apply (.add sig) = d ∧ ((sig.name = "" ∧ e = .emptyFunctionName) ∨
            (sig.name ≠ "" ∧ sig.name ∈ d.entries.toList.map (·.sig.name) ∧
              e = .duplicateFunction sig.name))) ∧
        (∀ i < c.size, c.isStart i = (conv.mark (c.sig i)).isStart ∧
          c.isEnd i = (conv.mark (c.sig i)).isEnd) ∧
        c = (({ policy := .prim "u8" } : Catalog).run (pairRun.filter Catalog.Op.isAdd)).setConventions
          conv ∧
        c = (({ policy := .prim "u8" } : Catalog).setConventions conv).run
          (pairRun.filter Catalog.Op.isAdd) := by
  have maps : ∀ sig, Catalog.Op.add sig ∈ pairRun → sig.bindings.Sorted := by
    intro sig member
    simp only [pairRun, List.mem_cons, Catalog.Op.add.injEq, reduceCtorEq, List.not_mem_nil,
      or_false, false_or] at member
    rcases member with rfl | rfl | rfl | rfl <;> exact List.Pairwise.nil
  exact ⟨maps, Catalog.run_tracks_admitted (.prim "u8") pairRun maps⟩

end DriverSynth
