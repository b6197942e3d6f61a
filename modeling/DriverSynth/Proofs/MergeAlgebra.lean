import DriverSynth.Proofs.Pool
import Mathlib.Data.List.Sort
import Mathlib.Data.String.Basic

/-! # Merging is concatenation with renumbering

`Sequence.merge` puts its parts one after the other, each later part's call and slot indices moved
past the parts before it; slots and usage are concatenated, and edges and traits inserted into the
first part's. Every sequence the program builds keeps its edges and traits strictly ascending
(`Sequence.Ordered`, `Api.ordered_mergeClosed`), so the order of insertion does not matter, and
merging is associative up to the stamps (`Sequence.Agrees`). Main statement:
`Sequence.merge_concat_assoc`.
-/

namespace DriverSynth

section Insert

variable {α : Type} [LinearOrder α]

/-- Inserting adds the item and keeps the others, whatever the order of the list. -/
theorem mem_insertOrdered {x y : α} {l : List α} :
    y ∈ insertOrdered x l ↔ y = x ∨ y ∈ l := by
  induction l with
  | nil => simp [insertOrdered]
  | cons z rest ih =>
    unfold insertOrdered
    split
    · simp
    split
    · rename_i same
      subst same
      simp
    · simp only [List.mem_cons, ih]
      exact or_left_comm

/-- Inserting keeps a list strictly ascending. -/
theorem pairwise_insertOrdered {x : α} {l : List α} (sorted : l.Pairwise (· < ·)) :
    (insertOrdered x l).Pairwise (· < ·) := by
  induction l with
  | nil => simp [insertOrdered]
  | cons z rest ih =>
    rw [List.pairwise_cons] at sorted
    unfold insertOrdered
    split
    · rename_i below
      refine List.Pairwise.cons (fun y member => ?_) (List.pairwise_cons.mpr sorted)
      rcases List.mem_cons.mp member with rfl | member
      · exact below
      · exact lt_trans below (sorted.1 y member)
    split
    · exact List.pairwise_cons.mpr sorted
    · rename_i notBelow other
      refine List.Pairwise.cons (fun y member => ?_) (ih sorted.2)
      rcases mem_insertOrdered.mp member with rfl | member
      · exact lt_of_le_of_ne (not_lt.mp notBelow) (Ne.symm other)
      · exact sorted.1 y member

theorem mem_foldl_insertOrdered {y : α} (items l : List α) :
    y ∈ items.foldl (fun acc x => insertOrdered x acc) l ↔ y ∈ l ∨ y ∈ items := by
  induction items generalizing l with
  | nil => simp
  | cons x rest ih =>
    rw [List.foldl_cons, ih, mem_insertOrdered, List.mem_cons]
    tauto

theorem pairwise_foldl_insertOrdered (items : List α) {l : List α}
    (sorted : l.Pairwise (· < ·)) :
    (items.foldl (fun acc x => insertOrdered x acc) l).Pairwise (· < ·) := by
  induction items generalizing l with
  | nil => exact sorted
  | cons x rest ih => exact ih (pairwise_insertOrdered sorted)

/-- Inserting the items of `xs` and then those of `ys` into an ascending list gives what
inserting the items of `ys` into `xs`, and then all of them, gives: both are the ascending list
of the same members. -/
theorem foldl_insertOrdered_assoc {l : List α} (sorted : l.Pairwise (· < ·)) (xs ys : List α) :
    ys.foldl (fun acc x => insertOrdered x acc) (xs.foldl (fun acc x => insertOrdered x acc) l) =
      (ys.foldl (fun acc x => insertOrdered x acc) xs).foldl
        (fun acc x => insertOrdered x acc) l := by
  refine List.Pairwise.eq_of_mem_iff
    (pairwise_foldl_insertOrdered _ (pairwise_foldl_insertOrdered _ sorted))
    (pairwise_foldl_insertOrdered _ sorted) fun y => ?_
  simp only [mem_foldl_insertOrdered]
  tauto

end Insert

namespace Source

theorem shift_shift (calls slots calls' slots' : Nat) (src : Source) :
    (src.shift calls slots).shift calls' slots' = src.shift (calls + calls') (slots + slots') := by
  cases src <;> simp [shift, Nat.add_assoc]

end Source

namespace Call

/-- A call as a sequence shows it: its function, its bindings and whether it makes a value,
without the stamp that tells which sequences share it. -/
def unstamped (c : Call) : Call := { c with stamp := 0 }

theorem unstamped_shift (c : Call) (calls slots stamp : Nat) :
    (c.shift calls slots stamp).unstamped = c.unstamped.shift calls slots 0 := rfl

theorem shift_shift (c : Call) (calls slots stamp calls' slots' stamp' : Nat) :
    (c.shift calls slots stamp).shift calls' slots' stamp' =
      c.shift (calls + calls') (slots + slots') stamp' := by
  simp only [shift, List.map_map]
  congr 2
  funext src
  exact Source.shift_shift calls slots calls' slots' src

end Call

namespace Sequence

/-- The covered edges and the traits of a sequence ascend strictly, each once. -/
structure Ordered (s : Sequence) : Prop where
  edges : s.edges.Pairwise (· < ·)
  traits : s.traits.Pairwise (· < ·)

/-- Two sequences agree when they show the same: the same calls up to their stamps, the same
slots, usage of results, covered edges and traits, and the same `unsafe` mark. -/
structure Agrees (a b : Sequence) : Prop where
  calls : a.calls.map Call.unstamped = b.calls.map Call.unstamped
  slots : a.slots = b.slots
  usage : a.usage = b.usage
  edges : a.edges = b.edges
  traits : a.traits = b.traits
  isUnsafe : a.isUnsafe = b.isUnsafe

variable {s a b : Sequence}

theorem ordered_empty : ({} : Sequence).Ordered := ⟨List.Pairwise.nil, List.Pairwise.nil⟩

theorem Agrees.refl (s : Sequence) : s.Agrees s := ⟨rfl, rfl, rfl, rfl, rfl, rfl⟩

theorem Agrees.trans {c : Sequence} (first : a.Agrees b) (second : b.Agrees c) : a.Agrees c :=
  ⟨first.calls.trans second.calls, first.slots.trans second.slots,
    first.usage.trans second.usage, first.edges.trans second.edges,
    first.traits.trans second.traits, first.isUnsafe.trans second.isUnsafe⟩

theorem Agrees.size_eq (agrees : a.Agrees b) : a.size = b.size := by
  have sizes := congrArg Array.size agrees.calls
  simpa only [Array.size_map, size] using sizes

theorem appendPart_edges (stamp : Nat) (s part : Sequence) :
    (s.appendPart stamp part).edges =
      part.edges.foldl (fun acc e => insertOrdered e acc) s.edges := by
  unfold appendPart
  simp only [foldl_coverEdge, foldl_addTrait]
  split <;> rfl

theorem appendPart_traits (stamp : Nat) (s part : Sequence) :
    (s.appendPart stamp part).traits =
      part.traits.foldl (fun acc t => insertOrdered t acc) s.traits := by
  unfold appendPart
  simp only [foldl_coverEdge, foldl_addTrait]
  split <;> rfl

theorem appendPart_isUnsafe (stamp : Nat) (s part : Sequence) :
    (s.appendPart stamp part).isUnsafe = (s.isUnsafe || part.isUnsafe) := by
  unfold appendPart
  simp only [foldl_coverEdge, foldl_addTrait]
  split
  · rename_i marked
    simp [markUnsafe, marked]
  · rename_i unmarked
    simp [unmarked]

/-- Appending a part to an ordered sequence gives an ordered sequence, whatever the part. -/
theorem Ordered.appendPart (ordered : s.Ordered) (stamp : Nat) (part : Sequence) :
    (s.appendPart stamp part).Ordered := by
  constructor
  · rw [appendPart_edges]
    exact pairwise_foldl_insertOrdered _ ordered.edges
  · rw [appendPart_traits]
    exact pairwise_foldl_insertOrdered _ ordered.traits

theorem Ordered.foldl_appendPart (ordered : s.Ordered) (stamp : Nat) (parts : List Sequence) :
    (parts.foldl (Sequence.appendPart stamp) s).Ordered := by
  induction parts generalizing s with
  | nil => exact ordered
  | cons part rest ih => exact ih (ordered.appendPart stamp part)

/-- A merge of parts whose first is ordered is ordered. -/
theorem Ordered.merge (stamp : Nat) {first : Sequence} (ordered : first.Ordered)
    (rest : List Sequence) : (merge stamp (first :: rest)).Ordered :=
  ordered.foldl_appendPart stamp rest

theorem Ordered.coverEdge (ordered : s.Ordered) (e : Nat) : (s.coverEdge e).Ordered :=
  ⟨pairwise_insertOrdered ordered.edges, ordered.traits⟩

theorem Ordered.addTrait (ordered : s.Ordered) (t : String) : (s.addTrait t).Ordered :=
  ⟨ordered.edges, pairwise_insertOrdered ordered.traits⟩

@[simp] theorem ordered_markUnsafe : s.markUnsafe.Ordered ↔ s.Ordered :=
  ⟨fun ordered => ⟨ordered.edges, ordered.traits⟩,
    fun ordered => ⟨ordered.edges, ordered.traits⟩⟩

@[simp] theorem ordered_addSlot (slot : Slot) : (s.addSlot slot).Ordered ↔ s.Ordered :=
  ⟨fun ordered => ⟨ordered.edges, ordered.traits⟩,
    fun ordered => ⟨ordered.edges, ordered.traits⟩⟩

@[simp] theorem ordered_use (i : Nat) (mode : Access) : (s.use i mode).Ordered ↔ s.Ordered :=
  ⟨fun ordered => ⟨ordered.edges, ordered.traits⟩,
    fun ordered => ⟨ordered.edges, ordered.traits⟩⟩

@[simp] theorem ordered_append (call : Call) : (s.append call).Ordered ↔ s.Ordered :=
  ⟨fun ordered => ⟨ordered.edges, ordered.traits⟩,
    fun ordered => ⟨ordered.edges, ordered.traits⟩⟩

/-- Renumbering the calls of a part commutes with forgetting their stamps. -/
theorem map_unstamped_shift (calls : Array Call) (n m stamp : Nat) :
    (calls.map (Call.shift n m stamp)).map Call.unstamped =
      (calls.map Call.unstamped).map (Call.shift n m 0) := by
  simp only [Array.map_map]
  rfl

/-- Appending parts that agree to sequences that agree gives sequences that agree, whatever the
stamps of the appended calls. -/
theorem Agrees.appendPart {a' b' : Sequence} (first : a.Agrees a') (second : b.Agrees b')
    (stamp stamp' : Nat) : (a.appendPart stamp b).Agrees (a'.appendPart stamp' b') where
  calls := by
    rw [appendPart_calls, appendPart_calls, Array.map_append, Array.map_append,
      map_unstamped_shift, map_unstamped_shift, first.calls, second.calls, first.size_eq,
      first.slots]
  slots := by rw [appendPart_slots, appendPart_slots, first.slots, second.slots]
  usage := by rw [appendPart_usage, appendPart_usage, first.usage, second.usage]
  edges := by rw [appendPart_edges, appendPart_edges, first.edges, second.edges]
  traits := by rw [appendPart_traits, appendPart_traits, first.traits, second.traits]
  isUnsafe := by rw [appendPart_isUnsafe, appendPart_isUnsafe, first.isUnsafe, second.isUnsafe]

/-- Appending two parts one after the other agrees with appending their merge: the offsets of
the last part's indices add up, and the edges and traits are the same ascending unions. -/
theorem appendPart_assoc (ordered : a.Ordered) (b c : Sequence)
    (stamp₁ stamp₂ stamp₃ stamp₄ : Nat) :
    ((a.appendPart stamp₁ b).appendPart stamp₂ c).Agrees
      (a.appendPart stamp₃ (b.appendPart stamp₄ c)) where
  calls := by
    have offsets : b.calls.size + a.calls.size = a.calls.size + b.calls.size := Nat.add_comm _ _
    have slotOffsets : b.slots.size + a.slots.size = a.slots.size + b.slots.size :=
      Nat.add_comm _ _
    simp only [appendPart_calls, appendPart_slots, Array.map_append, Array.append_assoc,
      Array.map_map, Array.size_append, Array.size_map, size]
    -- past the first part's calls, and the second's, which differ in their stamps only
    congr 3
    funext call
    simp only [Function.comp_apply, Call.shift_shift, Call.unstamped_shift, offsets,
      slotOffsets]
  slots := by simp only [appendPart_slots, Array.append_assoc]
  usage := by simp only [appendPart_usage, Array.append_assoc]
  edges := by
    simp only [appendPart_edges]
    exact foldl_insertOrdered_assoc ordered.edges _ _
  traits := by
    simp only [appendPart_traits]
    exact foldl_insertOrdered_assoc ordered.traits _ _
  isUnsafe := by simp only [appendPart_isUnsafe, Bool.or_assoc]

/-- A merge of two parts: the second's calls follow the first's, renumbered past its calls and
slots; the slots and usage are concatenated; the covered edges and traits are the ascending
unions of the two; and it needs `unsafe` when a part does. -/
theorem merge_pair (ordered : a.Ordered) (stamp : Nat) (b : Sequence) :
    (merge stamp [a, b]).calls = a.calls ++ b.calls.map (Call.shift a.size a.slots.size stamp) ∧
      (merge stamp [a, b]).slots = a.slots ++ b.slots ∧
      (merge stamp [a, b]).usage = a.usage ++ b.usage ∧
      (merge stamp [a, b]).Ordered ∧
      (∀ e, e ∈ (merge stamp [a, b]).edges ↔ e ∈ a.edges ∨ e ∈ b.edges) ∧
      (∀ t, t ∈ (merge stamp [a, b]).traits ↔ t ∈ a.traits ∨ t ∈ b.traits) ∧
      (merge stamp [a, b]).isUnsafe = (a.isUnsafe || b.isUnsafe) := by
  -- a merge of two parts appends the second to the first
  change (a.appendPart stamp b).calls = _ ∧ (a.appendPart stamp b).slots = _ ∧
    (a.appendPart stamp b).usage = _ ∧ (a.appendPart stamp b).Ordered ∧
    (∀ e, e ∈ (a.appendPart stamp b).edges ↔ _) ∧
    (∀ t, t ∈ (a.appendPart stamp b).traits ↔ _) ∧ (a.appendPart stamp b).isUnsafe = _
  refine ⟨appendPart_calls stamp a b, appendPart_slots stamp a b, appendPart_usage stamp a b,
    ordered.appendPart stamp b, fun e => ?_, fun t => ?_, appendPart_isUnsafe stamp a b⟩
  · rw [appendPart_edges, mem_foldl_insertOrdered]
  · rw [appendPart_traits, mem_foldl_insertOrdered]

/-- Merging concatenates the calls with renumbering, the slots and usage in order, and the edges and
traits as ascending unions; it is associative whatever the stamps, a merge of one part is that
part, and a merge of none is empty. -/
theorem merge_concat_assoc (ordered : a.Ordered) (b c : Sequence)
    (stamp stamp₁ stamp₂ stamp₃ stamp₄ : Nat) :
    ((merge stamp [a, b]).calls = a.calls ++ b.calls.map (Call.shift a.size a.slots.size stamp) ∧
      (merge stamp [a, b]).slots = a.slots ++ b.slots ∧
      (merge stamp [a, b]).usage = a.usage ++ b.usage ∧
      (merge stamp [a, b]).Ordered ∧
      (∀ e, e ∈ (merge stamp [a, b]).edges ↔ e ∈ a.edges ∨ e ∈ b.edges) ∧
      (∀ t, t ∈ (merge stamp [a, b]).traits ↔ t ∈ a.traits ∨ t ∈ b.traits) ∧
      (merge stamp [a, b]).isUnsafe = (a.isUnsafe || b.isUnsafe)) ∧
    (merge stamp [a, b, c]).Agrees (merge stamp₁ [merge stamp₂ [a, b], c]) ∧
    (merge stamp [a, b, c]).Agrees (merge stamp₃ [a, merge stamp₄ [b, c]]) ∧
    merge stamp [a] = a ∧ merge stamp [] = {} := by
  -- merging the first two parts differs from merging all three in the stamps only
  have left : (merge stamp [a, b, c]).Agrees (merge stamp₁ [merge stamp₂ [a, b], c]) :=
    ((Agrees.refl a).appendPart (Agrees.refl b) stamp stamp₂).appendPart (Agrees.refl c)
      stamp stamp₁
  exact ⟨merge_pair ordered stamp b, left,
    appendPart_assoc ordered b c stamp stamp stamp₃ stamp₄, rfl, rfl⟩

/-- Two calls: the first makes a value, which the second moves along edge 1 beside a byte
read from the input; the sequence has covered edges 1 and 3 and the trait `Read`. -/
def movePair : Sequence where
  calls := #[⟨0, [], true, 0⟩, ⟨1, [.result 0 .move (some 1), .slot 0 .copy], false, 0⟩]
  slots := #[⟨.prim "u8", .fixed, 1, false⟩]
  edges := [1, 3]
  usage := #[{ hold := .moved, useCount := 1 }, {}]
  traits := ["Read"]

theorem movePair_merge_concat_assoc :
    movePair.Ordered ∧
      (merge 0 [movePair, movePair, movePair]).Agrees
        (merge 1 [movePair, merge 2 [movePair, movePair]]) := by
  have ordered : movePair.Ordered := ⟨by decide, List.pairwise_singleton _ _⟩
  exact ⟨ordered, (merge_concat_assoc ordered movePair movePair 0 0 0 1 2).2.2.1⟩

end Sequence

namespace Api

variable {api : Api}

theorem bindParam_ordered {base : Sequence} {fn k : Nat} {d d' : Draft} (ordered : d.seq.Ordered)
    (bound : api.bindParam base fn d k = some d') : d'.seq.Ordered := by
  rcases bindParam_eq_some bound with ⟨-, rfl⟩ | ⟨j, id, -, rfl⟩
  · exact Sequence.ordered_addSlot _ |>.mpr ordered
  · dsimp only
    split
    · exact Sequence.ordered_markUnsafe.mpr (ordered.coverEdge id)
    · exact ordered.coverEdge id

theorem foldl_use_ordered (uses : List (Nat × Access)) {seq : Sequence} (ordered : seq.Ordered) :
    (uses.foldl (fun acc (j, mode) => acc.use j mode) seq).Ordered := by
  induction uses generalizing seq with
  | nil => exact ordered
  | cons use rest ih => exact ih (Sequence.ordered_use _ _ |>.mpr ordered)

/-- A call starts from the sequence with the unsafe mark and the trait of its function, and that
start is ordered when the sequence is. -/
theorem callStart_ordered {s : Sequence} (ordered : s.Ordered) (sig : Signature) :
    (match sig.traitPath with
      | some t => (if sig.isUnsafe = true then s.markUnsafe else s).addTrait t
      | none => if sig.isUnsafe = true then s.markUnsafe else s).Ordered := by
  have marked : (if sig.isUnsafe = true then s.markUnsafe else s).Ordered := by
    split
    · exact Sequence.ordered_markUnsafe.mpr ordered
    · exact ordered
  split
  · exact marked.addTrait _
  · exact marked

/-- Admitting a call keeps a sequence ordered: binding a parameter inserts at most an edge, and
the function's trait is inserted too. -/
theorem extend?_ordered {s s' : Sequence} (ordered : s.Ordered) {stamp fn : Nat}
    (extended : api.extend? stamp s fn = some s') : s'.Ordered := by
  unfold extend? at extended
  dsimp only at extended
  have started := callStart_ordered ordered (api.catalog.sig fn)
  split at extended
  · cases extended
  split at extended
  · cases extended
    exact Sequence.ordered_append _ |>.mpr started
  · split at extended
    · cases extended
    · rename_i d folded
      have drafted : d.seq.Ordered :=
        foldlM_range_invariant (fun _ d => d.seq.Ordered) started
          (fun _ _ _ _ ordered step => bindParam_ordered ordered step) folded
      split at extended
      · cases extended
      · cases extended
        exact Sequence.ordered_append _ |>.mpr (foldl_use_ordered d.uses drafted)

/-- Admission and merging keep sequences ordered, so every sequence they build from the empty
one has its edges and traits strictly ascending. -/
theorem ordered_mergeClosed : api.MergeClosed Sequence.Ordered where
  empty := Sequence.ordered_empty
  extend := fun ordered extended => extend?_ordered ordered extended
  merge := by
    rintro (_ | ⟨first, rest⟩) ordered
    · exact Sequence.ordered_empty
    · exact (ordered first List.mem_cons_self).merge 0 rest

end Api

end DriverSynth
