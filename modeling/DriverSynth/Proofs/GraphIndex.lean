import DriverSynth.Graph

/-! # The dependency graph is the relation of linked triples

`Graph.buildWith rule catalog` lists exactly the triples of producer, consumer and parameter
whose types link under `rule` (`Graph.linkFor`), each with the link the rule gives, in the
lexicographic order of the triple; the id of an edge is its position. The indexes answer the
queries: `between` gives the ascending ids of the edges of one triple, `find?` the first of them,
and `producersOf` the ascending producers of the edges into a consumer, each once.

The triple index files ids under a key of 64 bits. Within the widths of its fields the key is
`(p * 2^24 + c) * 2^16 + k` (`Graph.tripleKey?_eq_some_iff`), so two triples that fit never share
a key (`Graph.tripleKey?_injective`), and a lookup finds the edges of its own triple only.
-/

namespace DriverSynth

namespace Edge

/-- The producer, consumer and parameter of an edge. -/
def triple (e : Edge) : Nat × Nat × Nat := (e.producer, e.consumer, e.param)

/-- Lexicographic order of producer, then consumer, then parameter. -/
def Before (a b : Edge) : Prop := Prod.Lex (· < ·) (Prod.Lex (· < ·) (· < ·)) a.triple b.triple

theorem before_iff {a b : Edge} :
    a.Before b ↔ a.producer < b.producer ∨ a.producer = b.producer ∧
      (a.consumer < b.consumer ∨ a.consumer = b.consumer ∧ a.param < b.param) := by
  simp [Before, triple, Prod.lex_def]

end Edge

namespace Graph

/-- The link by which parameter `k` of `c` takes the result of `p`, when the two are joined: `p`
has a result and is no end function, `c` is no start function and has a parameter `k`, both
types survive the bindings of their own function, and the rule finds them compatible. -/
def linkFor (rule : Ty → Ty → Link) (catalog : Catalog) (p c k : Nat) : Option Link :=
  if p < catalog.size ∧ c < catalog.size ∧ catalog.isEnd p = false ∧
      catalog.isStart c = false then
    match (catalog.sig p).output.bind (·.subst (catalog.sig p).bindings),
        (catalog.sig c).params[k]?.bind (·.subst (catalog.sig c).bindings) with
    | some produced, some consumed =>
      if (rule produced consumed).compatible then some (rule produced consumed) else none
    | _, _ => none
  else none

variable {rule : Ty → Ty → Link} {catalog : Catalog}

theorem linkFor_eq_some_iff {p c k : Nat} {l : Link} :
    linkFor rule catalog p c k = some l ↔
      p < catalog.size ∧ c < catalog.size ∧ catalog.isEnd p = false ∧
      catalog.isStart c = false ∧ ∃ produced consumed,
        (catalog.sig p).output.bind (·.subst (catalog.sig p).bindings) = some produced ∧
        (catalog.sig c).params[k]?.bind (·.subst (catalog.sig c).bindings) = some consumed ∧
        (rule produced consumed).compatible ∧ l = rule produced consumed := by
  unfold linkFor
  by_cases bounds : p < catalog.size ∧ c < catalog.size ∧ catalog.isEnd p = false ∧
      catalog.isStart c = false
  · rw [if_pos bounds]
    obtain ⟨producer, consumer, notEnd, notStart⟩ := bounds
    rw [and_iff_right producer, and_iff_right consumer, and_iff_right notEnd,
      and_iff_right notStart]
    split
    · rename_i produced consumed out param
      simp only [out, param, Option.some.injEq, exists_and_left, exists_eq_left']
      cases (rule produced consumed).compatible with
      | true => simp [eq_comm]
      | false => simp
    · rename_i notBoth
      simp only [reduceCtorEq, false_iff]
      rintro ⟨produced, consumed, out, param, -⟩
      exact notBoth produced consumed out param
  · rw [if_neg bounds]
    simp only [reduceCtorEq, false_iff]
    rintro ⟨producer, consumer, notEnd, notStart, -⟩
    exact bounds ⟨producer, consumer, notEnd, notStart⟩

private theorem mem_zip_range {α : Type} {l : List α} {k : Nat} {x : α} :
    (k, x) ∈ (List.range l.length).zip l ↔ l[k]? = some x := by
  simp [List.mem_iff_getElem, List.getElem_zip, List.getElem?_eq_some_iff]

private theorem pairwise_zip_range {α : Type} (l : List α) :
    ((List.range l.length).zip l).Pairwise (fun a b => a.1 < b.1) := by
  rw [List.pairwise_iff_getElem]
  intro i j _ _ lt
  simpa [List.getElem_zip] using lt

/-- The edges into one consumer from one producer are those of its parameters that link. -/
theorem mem_edgesFromTo {p c : Nat} {produced : Ty} {e : Edge} :
    e ∈ edgesFromTo rule catalog p produced c ↔
      e.producer = p ∧ e.consumer = c ∧ ∃ consumed,
        (catalog.sig c).params[e.param]?.bind (·.subst (catalog.sig c).bindings) = some consumed ∧
        (rule produced consumed).compatible ∧ e.link = rule produced consumed := by
  simp only [edgesFromTo, List.mem_filterMap, Prod.exists]
  constructor
  · rintro ⟨k, param, member, built⟩
    rw [mem_zip_range] at member
    split at built
    · cases built
    · rename_i consumed substituted
      split at built
      · cases built
        exact ⟨rfl, rfl, consumed, by simp [member, substituted], by assumption, rfl⟩
      · cases built
  · rintro ⟨rfl, rfl, consumed, substituted, compatible, linked⟩
    obtain ⟨param, member, substituted⟩ := Option.bind_eq_some_iff.mp substituted
    refine ⟨e.param, param, mem_zip_range.mpr member, ?_⟩
    rw [← linked] at compatible
    simp [substituted, ← linked, compatible]

-- The edge that parameter `k` gives, if any, is numbered by `k`.
private theorem param_eq_of_built {k p c : Nat} {produced : Ty} {o : Option Ty} {e : Edge}
    (built : (match o with
      | none => none
      | some consumed =>
        if (rule produced consumed).compatible then some (⟨p, c, k, rule produced consumed⟩ : Edge)
        else none) = some e) :
    e.param = k := by
  cases o with
  | none => cases built
  | some consumed =>
    dsimp only at built
    split at built
    · cases built
      rfl
    · cases built

/-- The parameters of the edges out of one producer into one consumer ascend. -/
theorem edgesFromTo_pairwise {p c : Nat} {produced : Ty} :
    (edgesFromTo rule catalog p produced c).Pairwise (fun a b => a.param < b.param) := by
  unfold edgesFromTo
  rw [List.pairwise_filterMap]
  refine (pairwise_zip_range _).imp ?_
  rintro ⟨k, param⟩ ⟨k', param'⟩ lt a built b built'
  rw [param_eq_of_built built, param_eq_of_built built']
  exact lt

/-- The edges out of a producer are those into each consumer that is no start function. -/
theorem mem_edgesFrom {p : Nat} {e : Edge} :
    e ∈ edgesFrom rule catalog p ↔
      catalog.isEnd p = false ∧ ∃ produced,
        (catalog.sig p).output.bind (·.subst (catalog.sig p).bindings) = some produced ∧
        e.consumer < catalog.size ∧ catalog.isStart e.consumer = false ∧
        e ∈ edgesFromTo rule catalog p produced e.consumer := by
  unfold edgesFrom
  cases ended : catalog.isEnd p with
  | true => simp
  | false =>
    simp only [ite_false, Bool.false_eq_true, true_and]
    split
    · rename_i none
      simp [none]
    · rename_i produced some
      simp only [some, Option.some.injEq, List.mem_flatMap, List.mem_filter, List.mem_range,
        Bool.not_eq_eq_eq_not, Bool.not_true, exists_eq_left']
      constructor
      · rintro ⟨c, ⟨bound, start⟩, member⟩
        obtain ⟨-, rfl, -⟩ := mem_edgesFromTo.mp member
        exact ⟨bound, start, member⟩
      · rintro ⟨bound, start, member⟩
        exact ⟨e.consumer, ⟨bound, start⟩, member⟩

theorem producer_of_mem_edgesFrom {p : Nat} {e : Edge} (member : e ∈ edgesFrom rule catalog p) :
    e.producer = p := by
  obtain ⟨-, produced, -, -, -, member⟩ := mem_edgesFrom.mp member
  exact (mem_edgesFromTo.mp member).1

/-! ## The key -/

theorem functionIdLimit_eq : functionIdLimit = 16777216 := rfl

theorem paramLimit_eq : paramLimit = 65536 := rfl

/-- A triple has a key exactly when it fits the widths, and the key then counts
`(p * 2^24 + c) * 2^16 + k`. -/
theorem tripleKey?_eq_some_iff {p c k : Nat} {key : UInt64} :
    tripleKey? p c k = some key ↔ p < functionIdLimit ∧ c < functionIdLimit ∧ k < paramLimit ∧
      key.toNat = (p * functionIdLimit + c) * paramLimit + k := by
  unfold tripleKey?
  split
  · rename_i fits
    obtain ⟨producer, consumer, param⟩ := fits
    rw [functionIdLimit_eq] at producer consumer
    rw [paramLimit_eq] at param
    -- each field lies below the next, so the or of the shifted fields is their sum
    have fields : (p.toUInt64 <<< 40).toNat = p <<< 24 <<< 16 ∧
        (c.toUInt64 <<< 16).toNat = c <<< 16 ∧ k.toUInt64.toNat = k := by
      simp only [UInt64.toNat_shiftLeft, Nat.toUInt64_eq, UInt64.toNat_ofNat', Nat.shiftLeft_eq]
      refine ⟨?_, ?_, ?_⟩ <;> simp <;> omega
    have packed : ((p.toUInt64 <<< 40) ||| (c.toUInt64 <<< 16) ||| k.toUInt64).toNat =
        (p * 2 ^ 24 + c) * 2 ^ 16 + k := by
      have or_shiftLeft : ∀ {a b i : Nat}, b < 2 ^ i → a <<< i ||| b = a * 2 ^ i + b :=
        fun small => by rw [← Nat.shiftLeft_add_eq_or_of_lt small, Nat.shiftLeft_eq]
      rw [UInt64.toNat_or, UInt64.toNat_or, fields.1, fields.2.1, fields.2.2,
        ← Nat.shiftLeft_or_distrib, or_shiftLeft (by omega), or_shiftLeft (by omega)]
    rw [Option.some.injEq, ← UInt64.toNat_inj, packed, functionIdLimit_eq, paramLimit_eq]
    simp [producer, consumer, param, eq_comm]
  · rename_i unfit
    simp only [reduceCtorEq, false_iff]
    rintro ⟨producer, consumer, param, -⟩
    exact unfit ⟨producer, consumer, param⟩

theorem tripleKey?_isSome {p c k : Nat} :
    (tripleKey? p c k).isSome ↔ p < functionIdLimit ∧ c < functionIdLimit ∧ k < paramLimit := by
  unfold tripleKey?
  split <;> simp_all

/-- Keys never alias: two triples with one key are the same triple. -/
theorem tripleKey?_injective {p c k p' c' k' : Nat} {key : UInt64}
    (keyed : tripleKey? p c k = some key) (keyed' : tripleKey? p' c' k' = some key) :
    p = p' ∧ c = c' ∧ k = k' := by
  obtain ⟨-, consumer, param, packed⟩ := tripleKey?_eq_some_iff.mp keyed
  obtain ⟨-, consumer', param', packed'⟩ := tripleKey?_eq_some_iff.mp keyed'
  rw [functionIdLimit_eq, paramLimit_eq] at packed packed'
  rw [functionIdLimit_eq] at consumer consumer'
  rw [paramLimit_eq] at param param'
  omega

/-- An id that a graph lists between a triple is of an edge of that triple, and the consumer
index lists it into the consumer. -/
theorem mem_between {g : Graph} {p c k id : Nat} (member : id ∈ g.between p c k) :
    id < g.numEdges ∧ (g.edge id).triple = (p, c, k) ∧ id ∈ (g.into.getD c #[]).toList := by
  unfold between lookup? at member
  cases keyed : tripleKey? p c k with
  | none => simp [keyed] at member
  | some key =>
    rw [keyed, Option.map_some, Option.getD_some] at member
    obtain ⟨e, found, keyedE, listed⟩ := g.filed key id member
    obtain ⟨bound, rfl⟩ := Array.getElem?_eq_some_iff.mp found
    obtain ⟨rfl, rfl, rfl⟩ := tripleKey?_injective keyedE keyed
    have same : g.edge id = g.edges[id] := by
      rw [edge, Array.getD_eq_getD_getElem?, Array.getElem?_eq_getElem bound, Option.getD_some]
    exact ⟨bound, by rw [same]; rfl, listed⟩

/-! ## Adding edges -/

@[simp] theorem numEdges_addEdge (g : Graph) (e : Edge) : (g.addEdge e).numEdges = g.numEdges + 1 := by
  simp [addEdge, numEdges]

theorem edge_addEdge_lt {g : Graph} {id : Nat} (bound : id < g.numEdges) (e : Edge) :
    (g.addEdge e).edge id = g.edge id := by
  simp only [addEdge, edge, numEdges] at bound ⊢
  rw [Array.getD_eq_getD_getElem?, Array.getD_eq_getD_getElem?, Array.getElem?_push,
    if_neg (Nat.ne_of_lt bound)]

theorem edge_addEdge_self (g : Graph) (e : Edge) : (g.addEdge e).edge g.numEdges = e := by
  simp [addEdge, edge, numEdges]

theorem edges_foldl_addEdge (l : List Edge) (g : Graph) :
    (l.foldl addEdge g).edges.toList = g.edges.toList ++ l := by
  induction l generalizing g with
  | nil => simp
  | cons e rest ih => simp [ih, addEdge]

/-- The indexes list exactly the ids of the edges into each consumer and of each key, in
ascending order. -/
structure Indexed (g : Graph) : Prop where
  into_eq : ∀ c, (g.into.getD c #[]).toList =
    (List.range g.numEdges).filter fun id => (g.edge id).consumer = c
  triples_eq : ∀ key, (g.triples.getD key #[]).toList =
    (List.range g.numEdges).filter fun id => (g.edge id).key? = some key

-- The ids of the edges with a property, after one more edge: the new id comes last.
private theorem filter_range_addEdge (g : Graph) (e : Edge) (P : Edge → Prop) [DecidablePred P] :
    (List.range (g.addEdge e).numEdges).filter (fun id => P ((g.addEdge e).edge id)) =
      (List.range g.numEdges).filter (fun id => P (g.edge id)) ++
        if P e then [g.numEdges] else [] := by
  rw [numEdges_addEdge, List.range_succ, List.filter_append]
  congr 1
  · refine List.filter_congr fun id member => ?_
    rw [edge_addEdge_lt (List.mem_range.mp member)]
  · by_cases holds : P e <;> simp [edge_addEdge_self, holds]

theorem indexed_empty (size : Nat) : (empty size).Indexed :=
  ⟨fun c => by simp [empty, numEdges], fun key => by simp [empty, numEdges]⟩

/-- Adding an edge files its id last under its consumer and under its key. -/
theorem Indexed.addEdge {g : Graph} (indexed : g.Indexed) (e : Edge) : (g.addEdge e).Indexed := by
  constructor
  · intro c
    rw [filter_range_addEdge g e (·.consumer = c), ← indexed.into_eq c]
    simp only [Graph.addEdge, Std.TreeMap.getD_insert]
    by_cases same : e.consumer = c
    · subst same
      simp [numEdges]
    · simp [same]
  · intro key
    rw [filter_range_addEdge g e (·.key? = some key), ← indexed.triples_eq key]
    simp only [Graph.addEdge]
    cases keyed : e.key? with
    | none => simp
    | some key' =>
      simp only [Std.TreeMap.getD_insert, Option.some.injEq]
      by_cases same : key' = key
      · subst same
        simp [numEdges]
      · simp [same]

theorem indexed_buildWith : (buildWith rule catalog).Indexed := by
  unfold buildWith
  suffices ∀ (l : List Edge) (g : Graph), g.Indexed → (l.foldl Graph.addEdge g).Indexed from
    this _ _ (indexed_empty catalog.size)
  intro l
  induction l with
  | nil => exact fun _ indexed => indexed
  | cons e rest ih => exact fun g indexed => ih _ (indexed.addEdge e)

theorem edges_toList : (buildWith rule catalog).edges.toList =
    (List.range catalog.size).flatMap (edgesFrom rule catalog) := by
  simp [buildWith, edges_foldl_addEdge, empty]

/-- An edge is in the graph exactly when its link is the one its triple asks for. -/
theorem mem_edges {e : Edge} :
    e ∈ (buildWith rule catalog).edges.toList ↔
      linkFor rule catalog e.producer e.consumer e.param = some e.link := by
  rw [edges_toList, List.mem_flatMap, linkFor_eq_some_iff]
  constructor
  · rintro ⟨p, bound, member⟩
    obtain rfl := producer_of_mem_edgesFrom member
    obtain ⟨notEnd, produced, out, consumer, notStart, member⟩ := mem_edgesFrom.mp member
    obtain ⟨-, -, consumed, param, compatible, linked⟩ := mem_edgesFromTo.mp member
    exact ⟨List.mem_range.mp bound, consumer, notEnd, notStart, produced, consumed, out, param,
      compatible, linked⟩
  · rintro ⟨producer, consumer, notEnd, notStart, produced, consumed, out, param, compatible,
      linked⟩
    refine ⟨e.producer, List.mem_range.mpr producer, mem_edgesFrom.mpr ⟨notEnd, produced, out,
      consumer, notStart, mem_edgesFromTo.mpr ⟨rfl, rfl, consumed, param, compatible, linked⟩⟩⟩

/-- The edges out of one producer come in the order of consumer and parameter. -/
theorem edgesFrom_pairwise {p : Nat} : (edgesFrom rule catalog p).Pairwise Edge.Before := by
  unfold edgesFrom
  split
  · exact List.Pairwise.nil
  dsimp only
  split
  · exact List.Pairwise.nil
  rename_i produced _
  rw [List.pairwise_flatMap]
  constructor
  · intro c _
    refine edgesFromTo_pairwise.imp_of_mem ?_
    intro a b memberA memberB lt
    obtain ⟨producerA, consumerA, -⟩ := mem_edgesFromTo.mp memberA
    obtain ⟨producerB, consumerB, -⟩ := mem_edgesFromTo.mp memberB
    rw [Edge.before_iff]
    omega
  · refine (List.pairwise_lt_range.filter _).imp ?_
    intro c c' lt a memberA b memberB
    obtain ⟨producerA, consumerA, -⟩ := mem_edgesFromTo.mp memberA
    obtain ⟨producerB, consumerB, -⟩ := mem_edgesFromTo.mp memberB
    rw [Edge.before_iff]
    omega

/-- The edges of a graph come in the lexicographic order of their triples. -/
theorem edges_pairwise : (buildWith rule catalog).edges.toList.Pairwise Edge.Before := by
  rw [edges_toList, List.pairwise_flatMap]
  refine ⟨fun p _ => edgesFrom_pairwise, List.pairwise_lt_range.imp ?_⟩
  intro p p' lt a memberA b memberB
  rw [Edge.before_iff, producer_of_mem_edgesFrom memberA, producer_of_mem_edgesFrom memberB]
  exact Or.inl lt

/-- Inserting into a sorted list adds the number and nothing else. -/
theorem mem_insertSorted {n x : Nat} {l : List Nat} : x ∈ insertSorted n l ↔ x = n ∨ x ∈ l := by
  induction l with
  | nil => simp [insertSorted]
  | cons m rest ih =>
    unfold insertSorted
    split
    · simp
    split
    · rename_i same
      subst same
      simp
    · simp only [List.mem_cons, ih]
      exact or_left_comm

/-- Inserting keeps a list strictly ascending. -/
theorem pairwise_insertSorted {n : Nat} {l : List Nat} (sorted : l.Pairwise (· < ·)) :
    (insertSorted n l).Pairwise (· < ·) := by
  induction l with
  | nil => simp [insertSorted]
  | cons m rest ih =>
    rw [List.pairwise_cons] at sorted
    unfold insertSorted
    split
    · rename_i lt
      refine List.Pairwise.cons ?_ (List.pairwise_cons.mpr sorted)
      intro y member
      rcases List.mem_cons.mp member with rfl | member
      · exact lt
      · exact Nat.lt_trans lt (sorted.1 y member)
    split
    · exact List.pairwise_cons.mpr sorted
    · rename_i notLt notSame
      refine List.Pairwise.cons ?_ (ih sorted.2)
      intro y member
      rcases mem_insertSorted.mp member with rfl | member
      · omega
      · exact sorted.1 y member

/-- Every edge of a graph joins functions of the catalog. -/
theorem bounds_of_mem_edges {e : Edge} (member : e ∈ (buildWith rule catalog).edges.toList) :
    e.producer < catalog.size ∧ e.consumer < catalog.size := by
  obtain ⟨producer, consumer, -⟩ := linkFor_eq_some_iff.mp (mem_edges.mp member)
  exact ⟨producer, consumer⟩

theorem edge_mem {id : Nat} (bound : id < (buildWith rule catalog).numEdges) :
    (buildWith rule catalog).edge id ∈ (buildWith rule catalog).edges.toList := by
  simp only [edge, numEdges] at bound ⊢
  rw [Array.getD_eq_getD_getElem?, Array.getElem?_eq_getElem bound, Option.getD_some]
  exact Array.getElem_mem_toList bound

/-- The row of a consumer in the index holds the ids of the edges into it, ascending. -/
theorem into_row (c : Nat) :
    ((buildWith rule catalog).into.getD c #[]).toList =
      (List.range (buildWith rule catalog).numEdges).filter
        (fun id => ((buildWith rule catalog).edge id).consumer = c) :=
  indexed_buildWith.into_eq c

/-- Within the widths of the key, the edges between a triple are the ids of the edges of that
triple, ascending. -/
theorem between_eq {p c k : Nat} (producer : p < functionIdLimit) (consumer : c < functionIdLimit)
    (param : k < paramLimit) :
    (buildWith rule catalog).between p c k =
      (List.range (buildWith rule catalog).numEdges).filter
        (fun id => ((buildWith rule catalog).edge id).triple = (p, c, k)) := by
  obtain ⟨key, keyed⟩ : ∃ key, tripleKey? p c k = some key := by
    simp [tripleKey?, producer, consumer, param]
  rw [between, lookup?, keyed, Option.map_some, Option.getD_some, indexed_buildWith.triples_eq]
  refine List.filter_congr fun id _ => ?_
  -- an edge has the key of the triple exactly when it is of the triple
  rw [decide_eq_decide]
  constructor
  · intro same
    obtain ⟨rfl, rfl, rfl⟩ := tripleKey?_injective same keyed
    rfl
  · intro triple
    simp only [Edge.triple, Prod.mk.injEq] at triple
    rw [Edge.key?, triple.1, triple.2.1, triple.2.2, keyed]

/-- Every edge of a graph passes a value: its link is compatible. -/
theorem edge_compatible {id : Nat} (bound : id < (buildWith rule catalog).numEdges) :
    ((buildWith rule catalog).edge id).link.compatible := by
  obtain ⟨-, -, -, -, produced, consumed, -, -, compatible, linked⟩ :=
    linkFor_eq_some_iff.mp (mem_edges.mp (edge_mem bound))
  rw [linked]
  exact compatible

-- Inserting the producers of some ids one after the other.
private theorem foldl_insertSorted_pairwise (producer : Nat → Nat) (ids acc : List Nat)
    (sorted : acc.Pairwise (· < ·)) :
    (ids.foldl (fun acc id => insertSorted (producer id) acc) acc).Pairwise (· < ·) := by
  induction ids generalizing acc with
  | nil => exact sorted
  | cons id rest ih => exact ih _ (pairwise_insertSorted sorted)

/-- Inserting the producers of some ids adds exactly those producers. -/
theorem mem_foldl_insertSorted (producer : Nat → Nat) (ids acc : List Nat) (x : Nat) :
    x ∈ ids.foldl (fun acc id => insertSorted (producer id) acc) acc ↔
      x ∈ acc ∨ ∃ id ∈ ids, producer id = x := by
  induction ids generalizing acc with
  | nil => simp
  | cons id rest ih =>
    rw [List.foldl_cons, ih, mem_insertSorted]
    simp only [List.mem_cons, exists_eq_or_imp]
    constructor
    · rintro ((rfl | member) | found)
      · exact Or.inr (Or.inl rfl)
      · exact Or.inl member
      · exact Or.inr (Or.inr found)
    · rintro (member | rfl | found)
      · exact Or.inl (Or.inr member)
      · exact Or.inl (Or.inl rfl)
      · exact Or.inr found

/-- The producers of a consumer ascend, each once, and are those of the edges into it. -/
theorem producersOf_spec (c : Nat) :
    ((buildWith rule catalog).producersOf c).Pairwise (· < ·) ∧
      ∀ p, p ∈ (buildWith rule catalog).producersOf c ↔
        ∃ e ∈ (buildWith rule catalog).edges.toList, e.consumer = c ∧ e.producer = p := by
  unfold producersOf
  rw [← Array.foldl_toList, into_row]
  refine ⟨foldl_insertSorted_pairwise _ _ _ List.Pairwise.nil, fun p => ?_⟩
  rw [mem_foldl_insertSorted]
  simp only [List.not_mem_nil, false_or, List.mem_filter, List.mem_range, decide_eq_true_eq]
  constructor
  · rintro ⟨id, ⟨bound, into⟩, rfl⟩
    exact ⟨_, edge_mem bound, into, rfl⟩
  · rintro ⟨e, member, into, rfl⟩
    obtain ⟨id, bound, rfl⟩ := List.mem_iff_getElem.mp member
    have inArray : id < (buildWith rule catalog).edges.size := by simpa using bound
    have same : (buildWith rule catalog).edge id = (buildWith rule catalog).edges.toList[id] := by
      rw [edge, Array.getD_eq_getD_getElem?, Array.getElem?_eq_getElem inArray, Option.getD_some,
        Array.getElem_toList]
    refine ⟨id, ⟨by simpa [numEdges] using bound, by rw [same]; exact into⟩, by rw [same]⟩

/-- The edges are the linked triples in lexicographic order, with the rule's link; within the key's
widths `between` lists a triple's edges ascending and `find?` gives the first; `producersOf` lists
a consumer's producers; and triples that fit have distinct keys. -/
theorem buildWith_lists_linked_triples (rule : Ty → Ty → Link) (catalog : Catalog) :
    (buildWith rule catalog).edges.toList.Pairwise Edge.Before ∧
    (∀ e, e ∈ (buildWith rule catalog).edges.toList ↔
      linkFor rule catalog e.producer e.consumer e.param = some e.link) ∧
    (∀ p c k, p < functionIdLimit → c < functionIdLimit → k < paramLimit →
      (buildWith rule catalog).between p c k =
        (List.range (buildWith rule catalog).numEdges).filter
          (fun id => ((buildWith rule catalog).edge id).triple = (p, c, k)) ∧
      (buildWith rule catalog).find? p c k =
        ((List.range (buildWith rule catalog).numEdges).filter
          (fun id => ((buildWith rule catalog).edge id).triple = (p, c, k))).head?) ∧
    (∀ c, ((buildWith rule catalog).producersOf c).Pairwise (· < ·) ∧
      ∀ p, p ∈ (buildWith rule catalog).producersOf c ↔
        ∃ e ∈ (buildWith rule catalog).edges.toList, e.consumer = c ∧ e.producer = p) ∧
    (∀ p c k p' c' k' key, tripleKey? p c k = some key → tripleKey? p' c' k' = some key →
      p = p' ∧ c = c' ∧ k = k') := by
  refine ⟨edges_pairwise, fun e => mem_edges, fun p c k producer consumer param => ?_,
    producersOf_spec, fun _ _ _ _ _ _ _ => tripleKey?_injective⟩
  exact ⟨between_eq producer consumer param, by rw [find?, between_eq producer consumer param]⟩

end Graph

end DriverSynth
