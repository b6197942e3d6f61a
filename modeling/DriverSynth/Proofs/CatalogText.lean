import DriverSynth.Format.Catalog
import DriverSynth.Proofs.TypeDoc
import DriverSynth.Proofs.CatalogBuild
import Mathlib.Data.List.Nodup

/-! # Catalog texts, read back

The text of a built catalog whose types nest at most `maxTypeDepth` deep reads back as a catalog
with the same functions under the same ids, when the JSON text library reads back what it writes
(`Catalog.parse_serialize`). Every function object reads back as its signature, the bindings
written sorted (`Bindings.foldlM_insert_toDoc`); adding the signatures again rebuilds the entries
one by one (`Catalog.foldlM_addDoc`), and since names are distinct the start and end names mark
each function as before (`Catalog.contains_names_filter`).
-/

namespace DriverSynth

namespace Visibility

theorem ofName?_name (v : Visibility) : ofName? v.name = some v := by
  cases v <;> rfl

end Visibility

namespace FnKind

theorem ofName?_name (k : FnKind) : ofName? k.name = some k := by
  cases k <;> rfl

end FnKind

namespace Doc

theorem strs_canonical (items : List String) : (strs items).Canonical :=
  .arr (by simp [Canonical.str])

theorem toStrs_strs (items : List String) : (strs items).toStrs = .ok items := by
  induction items with
  | nil => rfl
  | cons s items ih =>
    simp only [strs, toStrs] at ih
    simp [strs, toStrs, toStr, ih, bind, Except.bind, pure, Except.pure]

end Doc

namespace Bindings

/-- Reading sorted bindings whose types nest at most `maxTypeDepth` levels deep, with a step that
reads each type and binds it, appends them one by one to what was read before. -/
theorem foldlM_insert_toDoc {step : Bindings → String × Doc → Except Fault Bindings}
    (stepped : ∀ acc g t, t.depth ≤ maxTypeDepth →
      step acc (g, t.toDoc) = .ok (insert g t acc)) :
    ∀ (bindings done : Bindings), (done ++ bindings).Sorted →
      (∀ b ∈ bindings, b.2.depth ≤ maxTypeDepth) →
      (bindings.map fun b => (b.1, b.2.toDoc)).foldlM step done = .ok (done ++ bindings)
  | [], done, _, _ => by simp [pure, Except.pure]
  | (g, t) :: bindings, done, sorted, shallow => by
    -- the next name is above every name read so far, so binding it appends it
    have above : ∀ b ∈ done, b.1 < g := fun b member =>
      (List.pairwise_append.mp sorted).2.2 b member (g, t) List.mem_cons_self
    have fits : t.depth ≤ maxTypeDepth := shallow (g, t) List.mem_cons_self
    have rest := foldlM_insert_toDoc stepped bindings (done ++ [(g, t)]) (by simpa using sorted)
      (fun b member => shallow b (List.mem_cons_of_mem _ member))
    rw [List.map_cons, List.foldlM_cons, stepped done g t fits, insert_of_above above]
    simpa [bind, Except.bind] using rest

end Bindings

namespace Signature

/-- Every type of a signature nests at most `levels` levels deep: its parameters, its output
and the types bound to its generics. -/
def NestsWithin (levels : Nat) (sig : Signature) : Prop :=
  (∀ t ∈ sig.params, t.depth ≤ levels) ∧ (∀ t ∈ sig.output, t.depth ≤ levels) ∧
    ∀ b ∈ sig.bindings, b.2.depth ≤ levels

/-- The members of a signature's document, in key order. -/
theorem toDoc_eq (sig : Signature) (sorted : sig.bindings.Sorted) :
    sig.toDoc = .obj [("generics", Doc.strs sig.generics), ("kind", .str sig.kind.name),
      ("name", .str sig.name), ("output", Doc.opt (sig.output.map Ty.toDoc)),
      ("params", .arr (Ty.toDocs sig.params)),
      ("substitutions", .obj (sig.bindings.map fun (g, t) => (g, t.toDoc))),
      ("trait", Doc.opt (sig.traitPath.map .str)), ("unsafe", .bool sig.isUnsafe),
      ("visibility", .str sig.visibility.name)] := by
  have inner : Doc.record (sig.bindings.map fun (g, t) => (g, t.toDoc)) =
      .obj (sig.bindings.map fun (g, t) => (g, t.toDoc)) := by
    exact Doc.record_of_sorted (List.pairwise_map.mpr sorted)
  rw [toDoc, inner]
  simp [-String.lt_iff_ltb, Doc.record, Doc.insertField]

theorem toDoc_canonical (sig : Signature) : sig.toDoc.Canonical := by
  apply Doc.record_canonical
  have bindings : (Doc.record (sig.bindings.map fun (g, t) => (g, t.toDoc))).Canonical := by
    apply Doc.record_canonical
    intro f member
    obtain ⟨⟨g, t⟩, -, rfl⟩ := List.mem_map.mp member
    exact Ty.toDoc_canonical t
  cases sig.output <;> cases sig.traitPath <;>
    simp [Doc.opt, Doc.strs_canonical, Doc.Canonical.str, Doc.Canonical.null, Doc.Canonical.bool,
      Doc.Canonical.arr (Ty.toDocs_canonical _), Ty.toDoc_canonical, bindings]

/-- A signature with sorted bindings whose types nest at most `maxTypeDepth` levels deep reads
back from its document. -/
theorem ofDoc_toDoc {sig : Signature} (sorted : sig.bindings.Sorted)
    (shallow : sig.NestsWithin maxTypeDepth) : ofDoc sig.toDoc = .ok sig := by
  obtain ⟨name, params, output, generics, bindings, visibility, traitPath, isUnsafe, kind⟩ :=
    sig
  rw [toDoc_eq _ sorted]
  simp [ofDoc, Doc.member, Doc.memberOr, Doc.has, Doc.get?, Doc.toStr, Doc.toStrs_strs, Doc.toBool,
    Doc.items, Doc.entries, Ty.shaped, bind, Except.bind, pure, Except.pure,
    Ty.mapM_ofDoc_toDocs shallow.1, Visibility.ofName?_name, FnKind.ofName?_name]
  rw [Bindings.foldlM_insert_toDoc ?_ bindings [] (by simpa using sorted) shallow.2.2]
  · -- an absent output or trait is written as null and read back as absent
    cases output with
    | none => cases traitPath <;> simp [Doc.opt, Functor.map, Except.map]
    | some t =>
      have fits : t.depth ≤ maxTypeDepth := shallow.2.1 t rfl
      cases traitPath <;>
        simp [Doc.opt, Ty.toDoc_ne_null, Ty.ofDoc_toDoc, fits, Functor.map, Except.map]
  · intro acc g t fits
    simp [Ty.ofDoc_toDoc, fits]

end Signature

namespace Catalog

private theorem map_range_getD {α β : Type} (xs : Array α) (fallback : α) (f : α → β) :
    (List.range xs.size).map (fun i => f (xs.getD i fallback)) = xs.toList.map f := by
  apply List.ext_getElem
  · simp
  · intro i inRange _
    have bound : i < xs.size := by simpa using inRange
    simp [Array.getD_eq_getD_getElem?, Array.getElem?_eq_getElem bound]

private theorem filter_range_getD {α β : Type} (xs : Array α) (fallback : α) (p : α → Bool)
    (f : α → β) :
    ((List.range xs.size).filter (fun i => p (xs.getD i fallback))).map
      (fun i => f (xs.getD i fallback)) = (xs.toList.filter p).map f := by
  have entries : xs.toList = (List.range xs.size).map (fun i => xs.getD i fallback) := by
    simpa using (map_range_getD xs fallback id).symm
  rw [entries, List.filter_map, List.map_map]
  rfl

/-- The members of a catalog's document, in key order: the names of the end functions, the
function objects in id order, and the names of the start functions. -/
theorem toDoc_eq (c : Catalog) :
    c.toDoc = .obj [("end", Doc.strs ((c.entries.toList.filter (·.isEnd)).map (·.sig.name))),
      ("functions", .arr (c.entries.toList.map (·.sig.toDoc))),
      ("start", Doc.strs ((c.entries.toList.filter (·.isStart)).map (·.sig.name)))] := by
  have starts : c.isStart = fun i => (c.entries.getD i default).isStart := rfl
  have ends : c.isEnd = fun i => (c.entries.getD i default).isEnd := rfl
  simp only [toDoc, size, sig]
  rw [starts, ends, map_range_getD c.entries default (·.sig.toDoc),
    filter_range_getD c.entries default (·.isStart) (·.sig.name),
    filter_range_getD c.entries default (·.isEnd) (·.sig.name)]
  simp [-String.lt_iff_ltb, Doc.record, Doc.insertField]

theorem toDoc_canonical (c : Catalog) : c.toDoc.Canonical := by
  rw [toDoc_eq]
  refine .obj (by simp [-String.lt_iff_ltb]) ?_
  simp [Doc.strs_canonical, Doc.Canonical.arr, Signature.toDoc_canonical]

/-- Among distinctly named functions, the names of those that pass a test hold a function's name
exactly when the function passes. -/
theorem contains_names_filter {entries : List Entry} (distinct : (entries.map (·.sig.name)).Nodup)
    (p : Entry → Bool) {e : Entry} (member : e ∈ entries) :
    ((entries.filter p).map (·.sig.name)).contains e.sig.name = p e := by
  cases passes : p e
  · -- a function of the same name that passes would be this one
    rw [Bool.eq_false_iff]
    intro found
    obtain ⟨e', picked, same⟩ := List.mem_map.mp (List.contains_iff_mem.mp found)
    obtain ⟨member', passes'⟩ := List.mem_filter.mp picked
    rw [List.inj_on_of_nodup_map distinct member' member same, passes] at passes'
    cases passes'
  · exact List.contains_iff_mem.mpr
      (List.mem_map.mpr ⟨e, List.mem_filter.mpr ⟨member, passes⟩, rfl⟩)

/-- Reading back the function objects of entries that adding leaves as they are rebuilds the
entries, one after the other. -/
theorem foldlM_addDoc (policy : Ty) (conv : Conventions) :
    ∀ (rest done : List Entry), ((done ++ rest).map (·.sig.name)).Nodup →
      (∀ e ∈ rest, e.sig.Normal ∧ e.sig.NestsWithin maxTypeDepth ∧ conv.mark e.sig = e) →
      (rest.map (·.sig.toDoc)).foldlM addDoc
          { policy := policy, conventions := conv, entries := done.toArray } =
        .ok { policy := policy, conventions := conv, entries := (done ++ rest).toArray }
  | [], done, _, _ => by simp [pure, Except.pure]
  | e :: rest, done, distinct, kept => by
    obtain ⟨normal, shallow, marked⟩ := kept e List.mem_cons_self
    have fresh : e.sig.name ∉ done.map (·.sig.name) := by
      simp only [List.map_append, List.map_cons, List.nodup_append] at distinct
      intro earlier
      exact distinct.2.2 _ earlier _ List.mem_cons_self rfl
    have added := add_of_fresh (c := ⟨policy, conv, done.toArray⟩) normal.named
      (by simpa using fresh)
    -- the policy has nothing left to bind, and the conventions mark the entry as it was marked
    have unchanged : e.sig.bindings.insertAll (e.sig.generics.map (·, policy)) = e.sig.bindings :=
      Bindings.insertAll_of_bound normal.sorted (by simpa using normal.bound)
    have step : addDoc ⟨policy, conv, done.toArray⟩ e.sig.toDoc =
        .ok ⟨policy, conv, (done ++ [e]).toArray⟩ := by
      simp [addDoc, Signature.ofDoc_toDoc normal.sorted shallow, added, unchanged, marked,
        bind, Except.bind, pure, Except.pure]
    have later := foldlM_addDoc policy conv rest (done ++ [e]) (by simpa using distinct)
      (fun e' member => kept e' (List.mem_cons_of_mem _ member))
    rw [List.map_cons, List.foldlM_cons, step]
    simpa [bind, Except.bind] using later

/-- The names written under a key of an object read back. -/
theorem namesAt_strs {fields : List (String × Doc)} {key : String} {names : List String}
    (found : (Doc.obj fields).get? key = some (Doc.strs names)) :
    namesAt (.obj fields) key = .ok names := by
  have each : ∀ names : List String,
      (names.map Doc.str).mapM (fun n => Ty.shaped n.toStr) = .ok names := by
    intro names
    induction names with
    | nil => rfl
    | cons name names ih =>
      rw [List.map_cons, List.mapM_cons, ih]
      rfl
  unfold namesAt
  rw [if_pos (by simp [Doc.has, found])]
  simp only [Doc.member, found, Ty.shaped, Doc.strs, Doc.items, bind, Except.bind]
  exact each names

/-- With a codec that reads back, the text of a built catalog whose types nest at most
`maxTypeDepth` deep reads back with the same functions and marks; a deeper type is refused with
`typeTooDeep`, a parse error. -/
theorem parse_serialize {json : JsonCodec} (readsBack : json.ReadsBack (some 2)) {c : Catalog}
    (built : c.Built) (shallow : ∀ e ∈ c.entries.toList, e.sig.NestsWithin maxTypeDepth) :
    (∃ c', parse json (c.serialize json) = .ok c' ∧ c'.entries = c.entries) ∧
      (∀ t : Ty,
        Ty.ofDoc t.toDoc = if t.depth ≤ maxTypeDepth then .ok t else .error .typeTooDeep) ∧
      Fault.typeTooDeep.code = .parseError := by
  refine ⟨?_, Ty.ofDoc_toDoc, rfl⟩
  obtain ⟨normal, distinct⟩ := built.wellFormed
  -- the names written under start and end mark every function as it is marked
  let conv := Conventions.fromNames ((c.entries.toList.filter (·.isStart)).map (·.sig.name))
    ((c.entries.toList.filter (·.isEnd)).map (·.sig.name))
  have marked : ∀ e ∈ c.entries.toList, conv.mark e.sig = e := by
    intro e member
    simp only [Conventions.mark, Conventions.fromNames, Conventions.holds, conv]
    rw [contains_names_filter distinct (·.isStart) member,
      contains_names_filter distinct (·.isEnd) member]
  have rebuilt := foldlM_addDoc (.prim "i32") conv c.entries.toList [] (by simpa using distinct)
    (fun e member => ⟨normal e member, shallow e member, marked e member⟩)
  refine ⟨{ conventions := conv, entries := c.entries.toList.toArray }, ?_, by simp⟩
  have reads : json.parse (c.serialize json) = some c.toDoc := readsBack _ (toDoc_canonical c)
  unfold parse
  rw [reads, toDoc_eq]
  dsimp only
  rw [namesAt_strs (by simp [Doc.get?]; rfl), namesAt_strs (by simp [Doc.get?]; rfl)]
  simpa [Doc.member, Doc.get?, Ty.shaped, Doc.items, Catalog.setConventions, bind, Except.bind]
    using rebuilt

end Catalog

/-- Two functions under the policy `u8`: `make` returns a `Vec<T>` and begins sequences, and
`take` consumes a `Vec<u8>` and ends them. -/
def pairCatalog : Catalog where
  policy := .prim "u8"
  conventions := .fromNames ["make"] ["take"]
  entries := #[
    ⟨{ name := "make", output := some (.vec (.generic "T")), generics := ["T"],
       bindings := [("T", .prim "u8")] }, true, false⟩,
    ⟨{ name := "take", params := [.vec (.prim "u8")] }, false, true⟩]

/-- Adding `make` and then `take` to an empty catalog with the policy `u8` builds
`pairCatalog`. -/
theorem pairCatalog_built : pairCatalog.Built := by
  have empty := Catalog.Built.empty (.prim "u8") (.fromNames ["make"] ["take"])
  have one := Catalog.Built.add empty (by simp)
    (Catalog.add_of_fresh (by decide) (by simp) :
      Catalog.add _ { name := "make", output := some (.vec (.generic "T")), generics := ["T"] } = _)
  have two := Catalog.Built.add one (by simp)
    (Catalog.add_of_fresh (by decide)
      (by simp [Conventions.mark, Conventions.fromNames, Conventions.holds]) :
      Catalog.add _ { name := "take", params := [.vec (.prim "u8")] } = _)
  exact two

theorem pairCatalog_parse_serialize :
    JsonCodec.standard.ReadsBack (some 2) ∧
      (∃ c', Catalog.parse .standard (pairCatalog.serialize .standard) = .ok c' ∧
        c'.entries = pairCatalog.entries) ∧
      (∀ t : Ty,
        Ty.ofDoc t.toDoc = if t.depth ≤ maxTypeDepth then .ok t else .error .typeTooDeep) ∧
      Fault.typeTooDeep.code = .parseError :=
  ⟨JsonCodec.standard_readsBack 2, Catalog.parse_serialize (JsonCodec.standard_readsBack 2)
    pairCatalog_built (by simp [pairCatalog, Signature.NestsWithin, Ty.depth, maxTypeDepth])⟩

end DriverSynth
