import DriverSynth.Proofs.Constructible
import DriverSynth.Proofs.CatalogBuild

/-! # Hiding modules

`Catalog.retainVisible` keeps the public functions whose name, and trait path when there is one,
lies in none of the hidden modules (`Catalog.LiesIn`: the module itself or below it after `::`),
and numbers them afresh by adding them to an empty catalog. In a built catalog, adding its functions
again succeeds and gives every entry back (`Catalog.Settled`), so the filtered catalog holds
exactly the visible entries, and filtering twice is filtering once by both lists
(`Catalog.retainVisible_filters`).
-/

namespace DriverSynth

namespace Catalog

/-- Whether a path lies in a module: it is the module itself, or starts with the module followed
by `::`. -/
def LiesIn (path module : String) : Prop :=
  path = module ∨ path.startsWith (module ++ "::") = true

instance (path module : String) : Decidable (LiesIn path module) :=
  inferInstanceAs (Decidable (_ ∨ _))

/-- Whether a function stays visible when the modules are hidden: it is public, and neither its
name nor its trait path lies in a nonempty one of them. -/
def Visible (modules : List String) (sig : Signature) : Prop :=
  sig.visibility = .pub ∧ (∀ m ∈ modules, m ≠ "" → ¬LiesIn sig.name m) ∧
    ∀ t ∈ sig.traitPath, ∀ m ∈ modules, m ≠ "" → ¬LiesIn t m

instance (modules : List String) (sig : Signature) : Decidable (Visible modules sig) :=
  inferInstanceAs (Decidable (_ ∧ _ ∧ _))

-- The two comparisons over characters: a prefix of the module's length, then the two after it.
private theorem prefix_then_separator (path module : List Char) :
    (module <+: path ∧ (path.length = module.length ∨ [':', ':'] <+: path.drop module.length)) ↔
      path = module ∨ module ++ [':', ':'] <+: path := by
  constructor
  · rintro ⟨⟨rest, rfl⟩, whole | separated⟩
    · left
      simpa using whole
    · right
      rw [List.drop_left] at separated
      exact (List.prefix_append_right_inj module).mpr separated
  · rintro (rfl | ⟨rest, rfl⟩)
    · exact ⟨List.prefix_refl _, .inl rfl⟩
    · refine ⟨⟨[':', ':'] ++ rest, by simp⟩, .inr ?_⟩
      rw [List.append_assoc, List.drop_left]
      exact List.prefix_append _ _

/-- A module hides a path exactly when the module is not empty and the path lies in it. -/
theorem hides_iff (module path : String) :
    hides module path = true ↔ module ≠ "" ∧ LiesIn path module := by
  have separator : "::".toList = [':', ':'] := by decide
  simp only [hides, Bool.and_eq_true, Bool.not_eq_true', String.isEmpty_eq_false_iff,
    String.isPrefixOf, String.startsWith_string_iff, Bool.or_eq_true, beq_iff_eq,
    String.Slice.startsWith_string_iff, String.toList_copy_drop, separator, and_assoc, LiesIn,
    String.toList_append, ← String.toList_inj, ← String.length_toList]
  exact and_congr_right fun _ => prefix_then_separator path.toList module.toList

theorem hiddenBy_eq_false_iff (modules : List String) (path : String) :
    hiddenBy modules path = false ↔ ∀ m ∈ modules, m ≠ "" → ¬LiesIn path m := by
  simp only [hiddenBy, List.any_eq_false, Bool.not_eq_true]
  refine forall₂_congr fun m _ => ?_
  rw [← Bool.not_eq_true, hides_iff, not_and]

/-- The test `retainVisible` applies to each function is visibility. -/
theorem visible_test (modules : List String) (e : Entry) :
    (e.sig.visibility == .pub && !hiddenBy modules e.sig.name &&
      !(e.sig.traitPath.map (hiddenBy modules) |>.getD false)) = decide (Visible modules e.sig) := by
  rw [Bool.eq_iff_iff, decide_eq_true_iff, Visible]
  cases trait : e.sig.traitPath with
  | none => simp [hiddenBy_eq_false_iff]
  | some t => simp [hiddenBy_eq_false_iff, and_assoc]

/-- Hiding two lists of modules hides the modules of both. -/
theorem visible_append (modules modules' : List String) (sig : Signature) :
    Visible (modules ++ modules') sig ↔ Visible modules sig ∧ Visible modules' sig := by
  simp only [Visible, List.mem_append]
  constructor
  · rintro ⟨pub, name, trait⟩
    exact ⟨⟨pub, fun m member => name m (.inl member),
        fun t member m within => trait t member m (.inl within)⟩,
      ⟨pub, fun m member => name m (.inr member),
        fun t member m within => trait t member m (.inr within)⟩⟩
  · rintro ⟨⟨pub, name, trait⟩, ⟨-, name', trait'⟩⟩
    exact ⟨pub, fun m member => member.elim (name m) (name' m),
      fun t member m within => within.elim (trait t member m) (trait' t member m)⟩

/-- A catalog as adding and setting conventions leave it: its functions are as adding leaves them,
under distinct names, and each carries the marks of the conventions. -/
structure Settled (c : Catalog) : Prop extends c.WellFormed where
  marked : ∀ e ∈ c.entries.toList, c.conventions.mark e.sig = e

theorem Built.settled {c : Catalog} (built : c.Built) : c.Settled := by
  refine ⟨built.wellFormed, ?_⟩
  induction built with
  | empty policy conventions => simp
  | add _ _ added ih =>
    obtain ⟨-, -, -, rfl⟩ := add_eq_ok added
    intro e member
    simp only [Array.toList_push, List.mem_append, List.mem_singleton] at member
    rcases member with old | rfl
    · exact ih e old
    · rfl
  | setConventions conventions _ _ =>
    intro e member
    simp only [Catalog.setConventions, Array.toList_map, List.mem_map] at member
    obtain ⟨e', -, rfl⟩ := member
    rfl

/-- Adding signatures with sorted bindings to a catalog that adding builds builds a catalog too,
whether each add succeeds or not. -/
theorem Built.addAll {c : Catalog} (built : c.Built) {sigs : List Signature}
    (sorted : ∀ sig ∈ sigs, sig.bindings.Sorted) : (c.addAll sigs).2.Built := by
  unfold Catalog.addAll
  refine (foldl_invariant (fun st : List (Except Fault Nat) × Catalog => st.2.Built) built ?_ rfl)
  rintro ⟨results, d⟩ sig member kept
  dsimp only
  split
  · rename_i id d' added
    exact kept.add (sorted sig member) added
  · exact kept

/-- Adding entries that are as adding leaves them, under distinct names and marked by the
conventions, to an empty catalog succeeds for each in turn, with ids from 0, and gives the entries
back. -/
theorem addAll_settled (policy : Ty) (conv : Conventions) {entries : List Entry}
    (normal : ∀ e ∈ entries, e.sig.Normal) (distinct : (entries.map (·.sig.name)).Nodup)
    (marked : ∀ e ∈ entries, conv.mark e.sig = e) :
    ({ policy, conventions := conv } : Catalog).addAll (entries.map (·.sig)) =
      ((List.range entries.length).map .ok, { policy, conventions := conv, entries := entries.toArray }) := by
  unfold Catalog.addAll
  -- after the signatures `done`, each has its id and the catalog holds their marked entries
  refine (foldl_prefix_invariant (fun (done : List Signature) st =>
      st = ((List.range done.length).map .ok,
        ({ policy, conventions := conv, entries := (done.map conv.mark).toArray } : Catalog)))
    rfl ?_ rfl).trans ?_
  · rintro done sig rest st split rfl
    dsimp only
    -- the signature is one of the entries, under a name not taken before it
    have member : sig ∈ entries.map (·.sig) := by rw [← split]; simp
    obtain ⟨e, entry, rfl⟩ := List.mem_map.mp member
    have names : entries.map (·.sig.name) = done.map (·.name) ++ e.sig.name :: rest.map (·.name) := by
      rw [show entries.map (·.sig.name) = (entries.map (·.sig)).map (·.name) by simp, ← split]
      simp
    have fresh : e.sig.name ∉ (done.map conv.mark).map (·.sig.name) := by
      have nodup := names ▸ distinct
      simp only [List.map_map, Function.comp_def, Conventions.mark]
      exact fun taken => (List.nodup_append.mp nodup).2.2 _ taken _ List.mem_cons_self rfl
    have kept : ({ e.sig with bindings := e.sig.bindings.insertAll (e.sig.generics.map (·, policy)) } :
        Signature) = e.sig := by
      rw [Bindings.insertAll_of_bound (normal e entry).sorted
        (fun b bound => by obtain ⟨g, generic, rfl⟩ := List.mem_map.mp bound; exact (normal e entry).bound g generic)]
    rw [add_of_fresh (normal e entry).named (by simpa using fresh), kept]
    simp [Catalog.size, List.range_succ]
  · rw [List.length_map, List.map_map]
    have back : entries.map (conv.mark ∘ (·.sig)) = entries := by
      conv => rhs; rw [← List.map_id entries]
      exact List.map_congr_left marked
    rw [back]

section Retain

variable {c : Catalog}

/-- The visible functions of a settled catalog are settled too, so adding them again, in order, to
an empty catalog with its policy and conventions succeeds for each and gives them back. -/
theorem Settled.addAll_visible (settled : c.Settled) (modules : List String) :
    ({ policy := c.policy, conventions := c.conventions } : Catalog).addAll
        ((c.entries.toList.filter fun e => decide (Visible modules e.sig)).map (·.sig)) =
      ((List.range (c.entries.toList.filter fun e => decide (Visible modules e.sig)).length).map .ok,
        { policy := c.policy, conventions := c.conventions,
          entries := (c.entries.toList.filter fun e => decide (Visible modules e.sig)).toArray }) := by
  have kept : ∀ e ∈ c.entries.toList.filter (fun e => decide (Visible modules e.sig)),
      e ∈ c.entries.toList := fun e member => (List.mem_filter.mp member).1
  exact addAll_settled c.policy c.conventions (fun e member => settled.normal e (kept e member))
    (settled.distinct.sublist (List.filter_sublist.map _))
    (fun e member => settled.marked e (kept e member))

/-- The functions `retainVisible` adds again are the visible entries of the catalog. -/
theorem retainVisible_eq_addAll (modules : List String) :
    c.retainVisible modules = (({ policy := c.policy, conventions := c.conventions } : Catalog).addAll
      ((c.entries.toList.filter fun e => decide (Visible modules e.sig)).map (·.sig))).2 := by
  unfold retainVisible
  simp only [visible_test]

/-- Filtering a catalog whose functions are as adding leaves them keeps its visible entries, in
order and unchanged, under its policy and conventions. -/
theorem retainVisible_eq (settled : c.Settled) (modules : List String) :
    c.retainVisible modules =
      { policy := c.policy, conventions := c.conventions,
        entries := (c.entries.toList.filter fun e => decide (Visible modules e.sig)).toArray } := by
  rw [retainVisible_eq_addAll, settled.addAll_visible]

/-- The catalog of the visible functions is one that adding builds. -/
theorem Built.retainVisible (built : c.Built) (modules : List String) :
    (c.retainVisible modules).Built := by
  rw [retainVisible_eq_addAll]
  refine (Built.empty c.policy c.conventions).addAll fun sig member => ?_
  obtain ⟨e, visible, rfl⟩ := List.mem_map.mp member
  exact (built.settled.normal e (List.mem_filter.mp visible).1).sorted

end Retain

/-- Hiding modules in a built catalog keeps, in order and unchanged, exactly the public functions
whose name and trait path lie in none of the modules; the kept functions re-add from id 0, and
hiding two lists in turn is hiding both. -/
theorem retainVisible_filters {c : Catalog} (built : c.Built) (modules : List String) :
    (c.retainVisible modules).entries.toList =
        c.entries.toList.filter (fun e => decide (Visible modules e.sig)) ∧
      (c.retainVisible modules).policy = c.policy ∧
      (c.retainVisible modules).conventions = c.conventions ∧
      (({ policy := c.policy, conventions := c.conventions } : Catalog).addAll
          ((c.entries.toList.filter fun e => decide (Visible modules e.sig)).map (·.sig))).1 =
        (List.range (c.retainVisible modules).size).map .ok ∧
      ∀ modules', (c.retainVisible modules).retainVisible modules' =
        c.retainVisible (modules ++ modules') := by
  have settled := built.settled
  have kept := retainVisible_eq settled modules
  refine ⟨by rw [kept], by rw [kept], by rw [kept], ?_, fun modules' => ?_⟩
  · rw [settled.addAll_visible, kept]
    simp [Catalog.size]
  · -- the kept catalog is built too, so hiding more filters its entries again
    have settled' := (built.retainVisible modules).settled
    rw [retainVisible_eq settled' modules', kept, retainVisible_eq settled (modules ++ modules')]
    simp only [List.filter_filter, visible_append, Bool.decide_and, Bool.and_comm]

end Catalog

/-- Functions below the modules `net` and `net::tls`, one below `net::tlsx` and one below `netx`
(which `net::tls` does not hide), a private one, and a method of a trait in `net::tls`;
`net::connect` starts sequences and `netx::open` ends them. -/
def netCatalog : Catalog :=
  (({ conventions := .fromNames ["net::connect"] ["netx::open"] } : Catalog).addAll [
    { name := "net::connect" },
    { name := "net::tls::handshake" },
    { name := "netx::open" },
    { name := "net::tlsx::probe" },
    { name := "net::close", visibility := .priv },
    { name := "read", traitPath := some "net::tls::Stream" }]).2

theorem netCatalog_built : netCatalog.Built :=
  (Catalog.Built.empty _ _).addAll (by simp)

theorem netCatalog_retainVisible_filters :
    netCatalog.Built ∧
      (netCatalog.retainVisible ["net::tls", ""]).entries.toList =
          netCatalog.entries.toList.filter (fun e => decide (Catalog.Visible ["net::tls", ""] e.sig)) ∧
      (netCatalog.retainVisible ["net::tls", ""]).policy = netCatalog.policy ∧
      (netCatalog.retainVisible ["net::tls", ""]).conventions = netCatalog.conventions ∧
      (({ policy := netCatalog.policy, conventions := netCatalog.conventions } : Catalog).addAll
          ((netCatalog.entries.toList.filter fun e =>
            decide (Catalog.Visible ["net::tls", ""] e.sig)).map (·.sig))).1 =
        (List.range (netCatalog.retainVisible ["net::tls", ""]).size).map .ok ∧
      ∀ modules', (netCatalog.retainVisible ["net::tls", ""]).retainVisible modules' =
        netCatalog.retainVisible (["net::tls", ""] ++ modules') :=
  ⟨netCatalog_built, Catalog.retainVisible_filters netCatalog_built ["net::tls", ""]⟩

-- `net::tls` hides its own functions and the trait method, not `net::tlsx`; the empty module
-- hides nothing; the kept functions keep their marks.
example : (netCatalog.retainVisible ["net::tls", ""]).entries.toList.map
      (fun e => (e.sig.name, e.isStart, e.isEnd)) =
    [("net::connect", true, false), ("netx::open", false, true), ("net::tlsx::probe", false, false)] := by
  decide +kernel

end DriverSynth
