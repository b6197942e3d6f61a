import DriverSynth.Catalog

/-! # Catalogs that adding builds

Bindings are kept sorted by name with each name once; binding a name keeps that order
(`Bindings.insert_sorted`), appends a name above all the others (`Bindings.insert_of_above`) and
leaves a bound name as it is (`Bindings.insert_of_bound`).

Adding a function succeeds exactly when its name is nonempty and new (`Catalog.add_of_fresh`,
`Catalog.add_eq_ok`), and then leaves the signature as adding leaves it (`Signature.Normal`): named,
with sorted bindings that bind every generic. Every catalog built by adding and setting
conventions keeps its functions so, under distinct names (`Catalog.Built.wellFormed`).
-/

namespace DriverSynth

namespace Bindings

/-- Bindings sorted by name, each name once. -/
abbrev Sorted (bindings : Bindings) : Prop := bindings.Pairwise (·.1 < ·.1)

theorem mem_insert {name : String} {ty : Ty} {bindings : Bindings} {b : String × Ty}
    (member : b ∈ insert name ty bindings) : b = (name, ty) ∨ b ∈ bindings := by
  induction bindings with
  | nil => simpa [insert] using member
  | cons c bindings ih =>
    obtain ⟨k, v⟩ := c
    unfold insert at member
    split at member
    · simpa using member
    · split at member
      · exact .inr member
      · rcases List.mem_cons.mp member with rfl | member
        · exact .inr List.mem_cons_self
        · rcases ih member with rfl | member
          · exact .inl rfl
          · exact .inr (List.mem_cons_of_mem _ member)

theorem insert_sorted {name : String} {ty : Ty} {bindings : Bindings} (sorted : bindings.Sorted) :
    (insert name ty bindings).Sorted := by
  induction bindings with
  | nil => simp [insert]
  | cons c bindings ih =>
    obtain ⟨k, v⟩ := c
    obtain ⟨above, tailSorted⟩ := List.pairwise_cons.mp sorted
    unfold insert
    split
    · rename_i below
      refine List.Pairwise.cons ?_ sorted
      intro b member
      rcases List.mem_cons.mp member with rfl | member
      · exact below
      · exact String.lt_trans below (above b member)
    · split
      · exact sorted
      · rename_i notBelow notSame
        have less : k < name := Std.lt_of_le_of_ne (String.not_lt.mp notBelow) (Ne.symm notSame)
        refine List.Pairwise.cons ?_ (ih tailSorted)
        intro b member
        rcases mem_insert member with rfl | member
        · exact less
        · exact above b member

/-- Binding a name that is bound already changes nothing. -/
theorem insert_of_bound {name : String} {ty : Ty} {bindings : Bindings} (sorted : bindings.Sorted)
    (bound : name ∈ bindings.map (·.1)) : insert name ty bindings = bindings := by
  induction bindings with
  | nil => simp at bound
  | cons c bindings ih =>
    obtain ⟨k, v⟩ := c
    obtain ⟨above, tailSorted⟩ := List.pairwise_cons.mp sorted
    simp only [List.map_cons, List.mem_cons] at bound
    unfold insert
    split
    · rename_i below
      -- a name below the first bound one is below every bound one, so it is not bound
      rcases bound with same | later
      · exact absurd below (same ▸ String.lt_irrefl k)
      · obtain ⟨b, member, rfl⟩ := List.mem_map.mp later
        exact absurd (above b member) (String.lt_asymm below)
    · split
      · rfl
      · rename_i notSame
        rw [ih tailSorted (bound.resolve_left notSame)]

/-- Binding a name above every bound one appends it. -/
theorem insert_of_above {name : String} {ty : Ty} {bindings : Bindings}
    (above : ∀ b ∈ bindings, b.1 < name) :
    insert name ty bindings = bindings ++ [(name, ty)] := by
  induction bindings with
  | nil => rfl
  | cons c bindings ih =>
    obtain ⟨k, v⟩ := c
    have less : k < name := above (k, v) List.mem_cons_self
    rw [insert, if_neg (String.lt_asymm less), if_neg (String.ne_of_lt less).symm,
      ih (fun b member => above b (List.mem_cons_of_mem _ member)), List.cons_append]

theorem mem_names_insert {name k : String} {ty : Ty} {bindings : Bindings} :
    k ∈ (insert name ty bindings).map (·.1) ↔ k = name ∨ k ∈ bindings.map (·.1) := by
  induction bindings with
  | nil => simp [insert]
  | cons c bindings ih =>
    obtain ⟨k', v⟩ := c
    unfold insert
    split
    · simp
    · split
      · rename_i same
        subst same
        simp
      · simp [ih, or_left_comm]

theorem insertAll_cons (bindings : Bindings) (b : String × Ty) (more : List (String × Ty)) :
    insertAll bindings (b :: more) = insertAll (insert b.1 b.2 bindings) more := rfl

theorem insertAll_sorted {bindings : Bindings} {more : List (String × Ty)}
    (sorted : bindings.Sorted) : (insertAll bindings more).Sorted := by
  induction more generalizing bindings with
  | nil => exact sorted
  | cons b more ih =>
    rw [insertAll_cons]
    exact ih (insert_sorted sorted)

/-- After adding bindings, a name is bound when it was bound before or is among the added. -/
theorem mem_names_insertAll {k : String} {bindings : Bindings} {more : List (String × Ty)} :
    k ∈ (insertAll bindings more).map (·.1) ↔
      k ∈ bindings.map (·.1) ∨ k ∈ more.map (·.1) := by
  induction more generalizing bindings with
  | nil => simp [insertAll]
  | cons b more ih =>
    rw [insertAll_cons, ih, mem_names_insert]
    simp [or_left_comm, or_assoc]

/-- Adding bindings for names that are all bound already changes nothing. -/
theorem insertAll_of_bound {bindings : Bindings} {more : List (String × Ty)}
    (sorted : bindings.Sorted) (bound : ∀ b ∈ more, b.1 ∈ bindings.map (·.1)) :
    insertAll bindings more = bindings := by
  induction more with
  | nil => rfl
  | cons b more ih =>
    rw [insertAll_cons, insert_of_bound sorted (bound b List.mem_cons_self)]
    exact ih (fun b' member => bound b' (List.mem_cons_of_mem _ member))

end Bindings

namespace Signature

/-- A signature as adding leaves it: it has a name, its bindings are sorted by name with each
name once, and each of its generics is bound. -/
structure Normal (sig : Signature) : Prop where
  named : sig.name ≠ ""
  sorted : sig.bindings.Sorted
  bound : ∀ g ∈ sig.generics, g ∈ sig.bindings.map (·.1)

/-- Binding the generics of a named signature with sorted bindings to a policy leaves it
normal. -/
theorem normal_insertAll {sig : Signature} (policy : Ty) (named : sig.name ≠ "")
    (sorted : sig.bindings.Sorted) :
    ({ sig with bindings := sig.bindings.insertAll (sig.generics.map (·, policy)) } :
      Signature).Normal where
  named := named
  sorted := Bindings.insertAll_sorted sorted
  bound _ member := Bindings.mem_names_insertAll.mpr (.inr (by simpa using member))

end Signature

namespace Catalog

theorem find?_eq_none {c : Catalog} {name : String} :
    c.find? name = none ↔ name ∉ c.entries.toList.map (·.sig.name) := by
  simp [find?, Array.findIdx?_eq_none_iff]

/-- Adding a function with a fresh, nonempty name succeeds: it takes the next id, and its entry
binds the unbound generics to the policy and carries the marks of the conventions. -/
theorem add_of_fresh {c : Catalog} {sig : Signature} (named : sig.name ≠ "")
    (fresh : sig.name ∉ c.entries.toList.map (·.sig.name)) :
    c.add sig = .ok (c.size, { c with entries := c.entries.push (c.conventions.mark
      { sig with bindings := sig.bindings.insertAll (sig.generics.map (·, c.policy)) }) }) := by
  have unnamed : sig.name.isEmpty = false := by simpa using named
  have absent : c.find? sig.name = none := find?_eq_none.mpr fresh
  simp [add, unnamed, absent]

/-- Adding succeeds only with a fresh, nonempty name, and then as `add_of_fresh` says. -/
theorem add_eq_ok {c c' : Catalog} {sig : Signature} {id : Nat}
    (added : c.add sig = .ok (id, c')) :
    sig.name ≠ "" ∧ sig.name ∉ c.entries.toList.map (·.sig.name) ∧ id = c.size ∧
      c' = { c with entries := c.entries.push (c.conventions.mark
        { sig with bindings := sig.bindings.insertAll (sig.generics.map (·, c.policy)) }) } := by
  unfold add at added
  split at added
  · cases added
  · rename_i unnamed
    split at added
    · cases added
    · rename_i present
      cases added
      have named : sig.name ≠ "" := by simpa using unnamed
      have fresh := find?_eq_none.mp (Option.not_isSome_iff_eq_none.mp present)
      exact ⟨named, fresh, rfl, rfl⟩

/-- The catalogs that adding builds: an empty catalog with any policy and conventions, then
signatures added one at a time, with the conventions set again at any point. Every signature
added has its bindings sorted by name, each name once, as bindings are kept. -/
inductive Built : Catalog → Prop
  | empty (policy : Ty) (conventions : Conventions) :
    Built { policy := policy, conventions := conventions }
  | add {c c' : Catalog} {sig : Signature} {id : Nat} :
    Built c → sig.bindings.Sorted → c.add sig = .ok (id, c') → Built c'
  | setConventions {c : Catalog} (conventions : Conventions) :
    Built c → Built (c.setConventions conventions)

/-- What adding keeps of a catalog: every signature is as adding leaves it, and no two functions
share a name. -/
structure WellFormed (c : Catalog) : Prop where
  normal : ∀ e ∈ c.entries.toList, e.sig.Normal
  distinct : (c.entries.toList.map (·.sig.name)).Nodup

theorem Built.wellFormed {c : Catalog} (built : c.Built) : c.WellFormed := by
  induction built with
  | empty policy conventions => exact ⟨by simp, by simp⟩
  | add _ sorted added ih =>
    obtain ⟨named, fresh, -, rfl⟩ := add_eq_ok added
    constructor
    · intro e member
      simp only [Array.toList_push, List.mem_append, List.mem_singleton] at member
      rcases member with member | rfl
      · exact ih.normal e member
      · exact Signature.normal_insertAll _ named sorted
    · simp only [Array.toList_push, List.map_append, List.nodup_append]
      refine ⟨ih.distinct, by simp, ?_⟩
      simpa [Conventions.mark] using fresh
  | setConventions conventions _ ih =>
    -- marking afresh leaves every signature as it was
    constructor
    · intro e member
      simp only [Catalog.setConventions, Array.toList_map, List.mem_map] at member
      obtain ⟨e', member', rfl⟩ := member
      exact ih.normal e' member'
    · simpa [Catalog.setConventions, Conventions.mark, Function.comp_def] using ih.distinct

end Catalog

end DriverSynth
