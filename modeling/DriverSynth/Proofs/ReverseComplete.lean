import DriverSynth.Proofs.ReverseLinear

/-! # Reverse construction builds every constructible function

Neither skipping producers being resolved nor remembering failures hides a producer that the
constructible marks rely on, when no parameter has variable length. Looking for a producer reaches
every marked one (`Api.findProducer_reaches`), so a failure independent of the resolving set is
one of a function that is not constructible (`Api.reverseWith_clean`), and by induction on a
ranking of the constructible functions every one of them is built (`Api.reverseWith_isSome`). The
fuel never runs out, since each level marks one more function as being resolved (`Api.Roomy`).
-/

namespace DriverSynth

namespace Sequence

theorem varCount_addSlot (s : Sequence) (slot : Slot) :
    (s.addSlot slot).varCount = s.varCount + if slot.kind = .variable then 1 else 0 := by
  simp [varCount, addSlot, List.countP_singleton]

theorem varCount_appendPart (stamp : Nat) (s part : Sequence) :
    (s.appendPart stamp part).varCount = s.varCount + part.varCount := by
  simp [varCount, appendPart_slots, List.countP_append]

/-- A merge of parts without a variable slot has none. -/
theorem varCount_merge (stamp : Nat) {parts : List Sequence}
    (none : ∀ q ∈ parts, q.varCount = 0) : (merge stamp parts).varCount = 0 := by
  cases parts with
  | nil => rfl
  | cons first rest =>
    unfold merge
    refine foldl_invariant (fun s : Sequence => s.varCount = 0) (none first List.mem_cons_self)
      ?_ rfl
    intro s part member zero
    rw [varCount_appendPart, zero, none part (List.mem_cons_of_mem _ member)]

end Sequence

namespace Api

variable {api : Api}

/-- Without a variable parameter, assembling a constructible target from parts without a
variable slot makes none. -/
theorem varCount_assemble
    (fixedOrFuzzed : ∀ f < api.size, ∀ k < (api.catalog.sig f).params.length,
      (api.paramClass f k).kind ≠ .variable)
    {target : Nat} (marked : api.constructible.getD target false = true) {parts : List Sequence}
    (resolved : List Resolved) (partsZero : ∀ q ∈ parts, q.varCount = 0) :
    (api.assemble target parts resolved).varCount = 0 := by
  have merged := Sequence.varCount_merge 0 partsZero
  unfold assemble
  dsimp only
  -- binding a parameter adds a slot only for an unresolved one, whose kind is its class's
  have bound : ∀ start : Sequence, start.varCount = 0 →
      ((List.range (api.catalog.sig target).params.length).foldl
        (api.bindAssembled target resolved (lastCallsFrom 0 parts)) (start, [])).1.varCount =
        0 := by
    intro start zero
    refine foldl_range_invariant (fun _ (st : Sequence × List Source) => st.1.varCount = 0) zero
      ?_ rfl
    rintro k ⟨seq, args⟩ below counted
    unfold bindAssembled
    dsimp only at counted ⊢
    split
    · split <;> simpa [Sequence.varCount] using counted
    · -- the slot has the kind of the parameter's class
      have kind : (api.slotFor target k (api.paramClass target k)).kind =
          (api.paramClass target k).kind := rfl
      rw [Sequence.varCount_addSlot, counted, kind,
        if_neg (fixedOrFuzzed target (lt_size_of_constructible marked) k below)]
  have appended : ∀ (s : Sequence) (c : Call), (s.append c).varCount = s.varCount := fun _ _ => rfl
  rw [appended]
  apply bound
  split <;> split <;> simpa [Sequence.varCount] using merged

/-- Parts gathered without a variable slot assemble without one. -/
theorem Gathered.varCount_assemble
    (fixedOrFuzzed : ∀ f < api.size, ∀ k < (api.catalog.sig f).params.length,
      (api.paramClass f k).kind ≠ .variable)
    {target k : Nat} (marked : api.constructible.getD target false = true) {parts : List Sequence}
    {resolved : List Resolved} {ok : Bool}
    (gathered : api.Gathered api.constructible (fun _ q => q.varCount = 0) target k parts resolved
      ok) :
    (api.assemble target parts resolved).varCount = 0 := by
  refine Api.varCount_assemble fixedOrFuzzed marked resolved fun q member => ?_
  obtain ⟨r, -, p, -, -, -, zero⟩ := gathered.mem_parts member
  exact zero

/-- Without a variable parameter, reverse construction makes no variable slot. -/
theorem varCount_assembleKeeps
    (fixedOrFuzzed : ∀ f < api.size, ∀ k < (api.catalog.sig f).params.length,
      (api.paramClass f k).kind ≠ .variable) :
    api.AssembleKeeps api.constructible fun _ q => q.varCount = 0 :=
  fun _ _ _ marked gathered _ => gathered.varCount_assemble fixedOrFuzzed marked

end Api

namespace ReverseMemo

/-- No constructible function is marked unreachable. -/
def Clean (known : Array Bool) (memo : ReverseMemo) : Prop :=
  ∀ f, known.getD f false = true → memo.unreachable.getD f false = false

/-- A clean memo with the constructible marks lets a constructible target past the first test of
reverse construction. -/
theorem Clean.buildable {api : Api} {P : Nat → Sequence → Prop} {memo : ReverseMemo}
    (clean : memo.Clean api.constructible) (keeps : memo.Keeps api.constructible P) {target : Nat}
    (marked : api.constructible.getD target false = true) :
    (!memo.constructible.getD target false || memo.unreachable.getD target false) = false := by
  rw [keeps.constructible_eq, marked, clean target marked]
  rfl

/-- What the builds for the producers of a target see: memos that keep no variable slot, are
clean, and mark `resolving` as being resolved. -/
structure Ready (api : Api) (resolving : Array Bool) (memo : ReverseMemo) : Prop where
  keeps : memo.Keeps api.constructible fun _ q => q.varCount = 0
  clean : memo.Clean api.constructible
  resolving_eq : memo.resolving = resolving

end ReverseMemo

namespace Api

variable {api : Api}

/-- Fuel for every function not yet being resolved: the marks cover the functions, and fewer
than `fuel` of them are unmarked. -/
def Roomy (api : Api) (fuel : Nat) (resolving : Array Bool) : Prop :=
  resolving.size = api.size ∧ resolving.toList.count false < fuel

/-- Marking a function of the catalog as being resolved takes one unit of fuel. -/
theorem Roomy.mark {fuel : Nat} {resolving : Array Bool} (roomy : api.Roomy (fuel + 1) resolving)
    {target : Nat} (bound : target < api.size) (unmarked : resolving.getD target false = false) :
    api.Roomy fuel (resolving.setIfInBounds target true) := by
  obtain ⟨sized, few⟩ := roomy
  have inside : target < resolving.size := by omega
  rw [Array.getD_eq_getD_getElem?, Array.getElem?_eq_getElem inside, Option.getD_some] at unmarked
  refine ⟨by rw [Array.size_setIfInBounds, sized], ?_⟩
  -- the target was one of the unmarked functions
  have present : 0 < resolving.toList.count false := by
    rw [List.count_pos_iff, ← unmarked]
    exact Array.getElem_mem_toList inside
  rw [Array.toList_setIfInBounds, List.count_set (by simpa using inside), Array.getElem_toList,
    unmarked]
  simp only [BEq.rfl, ↓reduceIte]
  have other : (true == false) = false := rfl
  rw [other]
  simp only [Bool.false_eq_true, ↓reduceIte]
  omega

section Reaching

variable {Inv : ReverseMemo → Prop}
  {build : Nat → ReverseMemo → Option Sequence × ReverseMemo × Bool}
  {known resolving : Array Bool}

/-- What looking for a producer has met of producer `p` once it is past `p`: a producer was
found, or `p` is being resolved and the search noted so, or building `p` from a memo with `Inv`
failed and the search noted whatever that failure depended on. -/
def Reached (Inv : ReverseMemo → Prop)
    (build : Nat → ReverseMemo → Option Sequence × ReverseMemo × Bool) (resolving : Array Bool)
    (p : Nat) (found : Option (Sequence × Nat)) (depends : Bool) : Prop :=
  found.isSome = true ∨ (resolving.getD p false = true ∧ depends = true) ∨
    ∃ memo, Inv memo ∧ resolving.getD p false = false ∧ (build p memo).1 = none ∧
      ((build p memo).2.2 = true → depends = true)

/-- Keeping what was found, and noting more, keeps what was reached. -/
theorem Reached.mono {p : Nat} {found found' : Option (Sequence × Nat)} {depends depends' : Bool}
    (reached : Reached Inv build resolving p found depends)
    (kept : found.isSome = true → found'.isSome = true) (more : depends = true → depends' = true) :
    Reached Inv build resolving p found' depends' := by
  rcases reached with some | ⟨busy, noted⟩ | ⟨memo, inv, idle, failed, noted⟩
  · exact .inl (kept some)
  · exact .inr (.inl ⟨busy, more noted⟩)
  · exact .inr (.inr ⟨memo, inv, idle, failed, fun dep => more (noted dep)⟩)

variable (preserves : ∀ f memo, Inv memo → Inv (build f memo).2.1)
  (marks : ∀ memo, Inv memo → memo.constructible = known ∧ memo.resolving = resolving)
include preserves marks

/-- Looking for a producer keeps `Inv`, and reaches every marked producer other than the target
with an edge into the parameter. -/
theorem findProducer_reaches {target k p : Nat} (bound : p < api.size) (other : p ≠ target)
    (marked : known.getD p false = true) (linked : api.graph.between p target k ≠ [])
    (depends : Bool) {memo : ReverseMemo} (inv : Inv memo) :
    Inv (api.findProducer build target k depends memo).2.2 ∧
      Reached Inv build resolving p (api.findProducer build target k depends memo).1
        (api.findProducer build target k depends memo).2.1 := by
  unfold findProducer
  refine (foldl_range_invariant (fun m (st : Option (Sequence × Nat) × Bool × ReverseMemo) =>
    Inv st.2.2 ∧ (p < m → Reached Inv build resolving p st.1 st.2.1)) ⟨inv, by omega⟩ ?_
    rfl).imp_right (· bound)
  rintro m ⟨found, depends', memo'⟩ _ ⟨kept, reached⟩
  dsimp only at kept reached ⊢
  obtain ⟨constructibleEq, resolvingEq⟩ := marks memo' kept
  split
  · -- skipped: a producer was found, or `m` is the target or not marked
    rename_i skip
    refine ⟨kept, fun past => ?_⟩
    rcases Nat.lt_succ_iff_lt_or_eq.mp past with before | rfl
    · exact reached before
    · simp only [Bool.or_eq_true, beq_iff_eq, Bool.not_eq_true', constructibleEq, marked]
        at skip
      rcases skip with (some | same) | unmarked
      · exact .inl some
      · exact absurd same other
      · cases unmarked
  split
  · -- no edge into the parameter
    rename_i unlinked
    refine ⟨kept, fun past => ?_⟩
    rcases Nat.lt_succ_iff_lt_or_eq.mp past with before | rfl
    · exact reached before
    · exact absurd unlinked linked
  split
  · -- being resolved: noted, not built
    rename_i edge rest between busy
    refine ⟨kept, fun past => ?_⟩
    rcases Nat.lt_succ_iff_lt_or_eq.mp past with before | rfl
    · exact (reached before).mono id fun _ => rfl
    · exact .inr (.inl ⟨resolvingEq ▸ busy, rfl⟩)
  rename_i edge rest between idle
  rcases built : build m memo' with ⟨sub, memo'', dep⟩
  have kept' : Inv memo'' := by simpa [built] using preserves m memo' kept
  cases sub with
  | some q => exact ⟨kept', fun _ => .inl rfl⟩
  | none =>
    refine ⟨kept', fun past => ?_⟩
    rcases Nat.lt_succ_iff_lt_or_eq.mp past with before | rfl
    · exact (reached before).mono id fun noted => by simp [noted]
    · -- the build of `m` failed, and what it depended on is noted
      refine .inr (.inr ⟨memo', kept, ?_, by rw [built], fun dep' => ?_⟩)
      · simpa [resolvingEq] using idle
      · rw [built] at dep'
        dsimp only at dep'
        rw [dep', Bool.or_true]

/-- Resolving the parameters of a target whose parameters that are not fuzzable each have a
marked producer fails only when the failure depended on a function being resolved, if a build of
a marked function that is not being resolved fails only so. -/
theorem resolveParams_depends {target : Nat}
    (fed : ∀ k < (api.catalog.sig target).params.length,
      (api.paramClass target k).kind = .notFuzzable →
      ∃ p, p < api.size ∧ p ≠ target ∧ known.getD p false = true ∧
        api.graph.between p target k ≠ [])
    (blocked : ∀ p memo, Inv memo → known.getD p false = true →
      resolving.getD p false = false → (build p memo).1 = none → (build p memo).2.2 = true)
    {memo : ReverseMemo} (inv : Inv memo) :
    Inv (api.resolveParams build target memo).2.2.2.2 ∧
      ((api.resolveParams build target memo).2.2.1 = false →
        (api.resolveParams build target memo).2.2.2.1 = true) := by
  unfold resolveParams
  refine foldl_range_invariant
    (fun _ (st : List Sequence × List Resolved × Bool × Bool × ReverseMemo) =>
      Inv st.2.2.2.2 ∧ (st.2.2.1 = false → st.2.2.2.1 = true)) ⟨inv, by simp⟩ ?_ rfl
  rintro k ⟨parts, resolved, ok, depends, memo'⟩ below ⟨kept, failed⟩
  dsimp only at kept failed ⊢
  split
  · exact ⟨kept, failed⟩
  rename_i going
  simp only [Bool.or_eq_true, Bool.not_eq_true', not_or, Bool.not_eq_false] at going
  have notFuzzable : (api.paramClass target k).kind = .notFuzzable := by
    simpa [FuzzClass.fuzzable] using going.2
  obtain ⟨p, bound, other, marked, linked⟩ := fed k below notFuzzable
  have reach := findProducer_reaches preserves marks bound other marked linked depends kept
  generalize api.findProducer build target k depends memo' = answer at reach ⊢
  obtain ⟨found, depends', memo''⟩ := answer
  obtain ⟨kept', reached⟩ := reach
  rcases found with _ | ⟨q, edge⟩
  · -- no producer: `p` was being resolved, or its build failed depending on one that was
    refine ⟨kept', fun _ => ?_⟩
    rcases reached with some | ⟨_, noted⟩ | ⟨memo, inv', idle, none, noted⟩
    · cases some
    · exact noted
    · exact noted (blocked p memo inv' marked idle none)
  · exact ⟨kept', fun stillFalse => by rw [going.1] at stillFalse; cases stillFalse⟩

/-- Resolving the parameters of a target whose parameters that are not fuzzable each have a
marked producer, not being resolved, that every memo with `Inv` builds, resolves them all. -/
theorem resolveParams_ok {target : Nat}
    (fed : ∀ k < (api.catalog.sig target).params.length,
      (api.paramClass target k).kind = .notFuzzable →
      ∃ p, p < api.size ∧ p ≠ target ∧ known.getD p false = true ∧
        api.graph.between p target k ≠ [] ∧ resolving.getD p false = false ∧
        ∀ memo, Inv memo → (build p memo).1.isSome = true)
    {memo : ReverseMemo} (inv : Inv memo) : (api.resolveParams build target memo).2.2.1 = true := by
  unfold resolveParams
  refine (foldl_range_invariant
    (fun _ (st : List Sequence × List Resolved × Bool × Bool × ReverseMemo) =>
      Inv st.2.2.2.2 ∧ st.2.2.1 = true) ⟨inv, rfl⟩ ?_ rfl).2
  rintro k ⟨parts, resolved, ok, depends, memo'⟩ below ⟨kept, resolvedAll⟩
  dsimp only at kept resolvedAll ⊢
  split
  · exact ⟨kept, resolvedAll⟩
  rename_i going
  simp only [Bool.or_eq_true, Bool.not_eq_true', not_or, Bool.not_eq_false] at going
  have notFuzzable : (api.paramClass target k).kind = .notFuzzable := by
    simpa [FuzzClass.fuzzable] using going.2
  obtain ⟨p, bound, other, marked, linked, idle, builds⟩ := fed k below notFuzzable
  have reach := findProducer_reaches preserves marks bound other marked linked depends kept
  generalize api.findProducer build target k depends memo' = answer at reach ⊢
  obtain ⟨found, depends', memo''⟩ := answer
  obtain ⟨kept', reached⟩ := reach
  rcases found with _ | ⟨q, edge⟩
  · -- `p` is not being resolved, and its build succeeds: the search cannot come back empty
    rcases reached with some | ⟨busy, _⟩ | ⟨memo, inv', _, none, _⟩
    · cases some
    · rw [idle] at busy
      cases busy
    · have := builds memo inv'
      rw [none] at this
      cases this
  · exact ⟨kept', resolvedAll⟩

end Reaching

/-- Each parameter of a constructible function that is not fuzzable has a constructible producer
other than the function, with an edge into it. -/
theorem constructible_fed {target : Nat} (marked : api.constructible.getD target false = true) :
    ∀ k < (api.catalog.sig target).params.length, (api.paramClass target k).kind = .notFuzzable →
      ∃ p, p < api.size ∧ p ≠ target ∧ api.constructible.getD p false = true ∧
        api.graph.between p target k ≠ [] := by
  intro k below notFuzzable
  obtain ⟨rank, ranked⟩ := @constructible_ranked api
  obtain ⟨p, other, producer, -, linked⟩ := (ranked target marked).fed k below notFuzzable
  exact ⟨p, lt_size_of_constructible producer, other, producer, linked⟩

section Complete

variable (fixedOrFuzzed : ∀ f < api.size, ∀ k < (api.catalog.sig f).params.length,
  (api.paramClass f k).kind ≠ .variable)
include fixedOrFuzzed

/-- Builds that keep memos clean keep them ready. -/
theorem Ready.reverseWith {fuel : Nat} {resolving : Array Bool}
    (cleans : ∀ f memo, memo.Keeps api.constructible (fun _ q => q.varCount = 0) →
      memo.Clean api.constructible → api.Roomy fuel memo.resolving →
      (api.reverseWith fuel f memo).2.1.Clean api.constructible)
    (roomy : api.Roomy fuel resolving) (f : Nat) {memo : ReverseMemo}
    (ready : memo.Ready api resolving) : (api.reverseWith fuel f memo).2.1.Ready api resolving := by
  obtain ⟨kept, frame, -⟩ :=
    reverseWith_keeps (varCount_assembleKeeps fixedOrFuzzed) fuel f memo ready.keeps
  refine ⟨kept, cleans f memo ready.keeps ready.clean (ready.resolving_eq ▸ roomy), ?_⟩
  rw [frame, ready.resolving_eq]

/-- Reverse construction keeps the memo clean, and fails for a constructible target only when
the failure depended on a function being resolved. -/
theorem reverseWith_clean :
    ∀ fuel target memo, memo.Keeps api.constructible (fun _ q => q.varCount = 0) →
      memo.Clean api.constructible → api.Roomy fuel memo.resolving →
      (api.reverseWith fuel target memo).2.1.Clean api.constructible ∧
        ((api.reverseWith fuel target memo).1 = none →
          api.constructible.getD target false = true →
            (api.reverseWith fuel target memo).2.2 = true)
  | 0, _, _, _, _, roomy => absurd roomy.2 (Nat.not_lt_zero _)
  | fuel + 1, target, memo, keeps, clean, roomy => by
    rw [reverseWith]
    split
    · -- not buildable: not constructible, as the memo is clean
      rename_i skip
      refine ⟨clean, fun _ marked => ?_⟩
      rw [clean.buildable keeps marked] at skip
      cases skip
    split
    · exact ⟨clean, by simp⟩
    split
    · exact ⟨clean, fun _ _ => rfl⟩
    rename_i buildable _ _ idle
    have marked : api.constructible.getD target false = true := by
      simp only [Bool.or_eq_true, Bool.not_eq_true', not_or, Bool.not_eq_false,
        keeps.constructible_eq] at buildable
      exact buildable.1
    have roomy' := roomy.mark (lt_size_of_constructible marked) (by simpa using idle)
    have start : ({ memo with resolving := memo.resolving.setIfInBounds target true } :
        ReverseMemo).Ready api (memo.resolving.setIfInBounds target true) :=
      ⟨keeps.marks _ _, clean, rfl⟩
    have preserves := Ready.reverseWith fixedOrFuzzed
      (fun f memo kept clean roomy => (reverseWith_clean fuel f memo kept clean roomy).1) roomy'
    have resolved := resolveParams_depends preserves
      (fun _ ready => ⟨ready.keeps.constructible_eq, ready.resolving_eq⟩)
      (constructible_fed marked)
      (fun p memo ready producer _ none => by
        rw [← ready.resolving_eq] at roomy'
        exact (reverseWith_clean fuel p memo ready.keeps ready.clean roomy').2 none producer)
      start
    have gathered := (@resolveParams_keeps api _ _ _ (reverseWith_keeps
      (varCount_assembleKeeps fixedOrFuzzed) fuel) target _ start.keeps).2.2
    dsimp only
    generalize api.resolveParams (api.reverseWith fuel) target
      { memo with resolving := memo.resolving.setIfInBounds target true } = result
      at resolved gathered ⊢
    obtain ⟨parts, resolved', ok, depends, memo'⟩ := result
    obtain ⟨ready', failed⟩ := resolved
    dsimp only at ready' failed gathered ⊢
    split
    · -- a parameter found no producer: the failure depended on a function being resolved
      rename_i notAll
      have noted := failed (by simpa using notAll)
      simp only [noted, ↓reduceIte]
      exact ⟨ready'.clean, by simp⟩
    rename_i all
    have resolvedAll : ok = true := by simpa using all
    subst resolvedAll
    -- assembling makes no variable slot, so it succeeds
    have zero := gathered.varCount_assemble fixedOrFuzzed marked
    split
    · omega
    · exact ⟨ready'.clean, by simp⟩

/-- By induction on the rank: a constructible target ranked below every function being resolved
is built. -/
theorem reverseWith_isSome {rank : Nat → Nat}
    (ranked : ∀ f, api.constructible.getD f false = true →
      api.Justified (fun p => api.constructible.getD p false = true) rank f) :
    ∀ n target, rank target < n → api.constructible.getD target false = true →
      ∀ fuel memo, memo.Keeps api.constructible (fun _ q => q.varCount = 0) →
        memo.Clean api.constructible → api.Roomy fuel memo.resolving →
        (∀ f, memo.resolving.getD f false = true → rank target < rank f) →
        (api.reverseWith fuel target memo).1.isSome = true
  | 0, _, below, _ => absurd below (Nat.not_lt_zero _)
  | n + 1, target, below, marked => by
    intro fuel memo keeps clean roomy above
    cases fuel with
    | zero => exact absurd roomy.2 (Nat.not_lt_zero _)
    | succ fuel =>
    rw [reverseWith]
    split
    · -- not buildable: impossible, the target is constructible and the memo clean
      rename_i skip
      rw [clean.buildable keeps marked] at skip
      cases skip
    split
    · rfl
    split
    · -- being resolved: impossible, it is ranked below every function being resolved
      rename_i busy
      exact absurd (above target busy) (Nat.lt_irrefl _)
    rename_i _ _ idle
    have roomy' := roomy.mark (lt_size_of_constructible marked) (by simpa using idle)
    have start : ({ memo with resolving := memo.resolving.setIfInBounds target true } :
        ReverseMemo).Ready api (memo.resolving.setIfInBounds target true) :=
      ⟨keeps.marks _ _, clean, rfl⟩
    have preserves := Ready.reverseWith fixedOrFuzzed
      (fun f memo kept clean roomy =>
        (reverseWith_clean fixedOrFuzzed fuel f memo kept clean roomy).1)
      roomy'
    -- each producer the ranks rely on is below the target, so not being resolved, and is built
    have producers : ∀ k < (api.catalog.sig target).params.length,
        (api.paramClass target k).kind = .notFuzzable →
        ∃ p, p < api.size ∧ p ≠ target ∧ api.constructible.getD p false = true ∧
          api.graph.between p target k ≠ [] ∧
          (memo.resolving.setIfInBounds target true).getD p false = false ∧
          ∀ memo', memo'.Ready api (memo.resolving.setIfInBounds target true) →
            (api.reverseWith fuel p memo').1.isSome = true := by
      intro k below' notFuzzable
      obtain ⟨p, other, producer, lower, linked⟩ := (ranked target marked).fed k below' notFuzzable
      have idle' : (memo.resolving.setIfInBounds target true).getD p false = false := by
        rw [getD_setIfInBounds, if_neg fun same => other same.1.symm]
        cases busy : memo.resolving.getD p false
        · rfl
        · exact absurd (above p busy) (by omega)
      refine ⟨p, lt_size_of_constructible producer, other, producer, linked, idle', ?_⟩
      intro memo' ready
      refine reverseWith_isSome ranked n p (by omega) producer fuel memo' ready.keeps ready.clean
        (ready.resolving_eq ▸ roomy') fun f busy => ?_
      rw [ready.resolving_eq, getD_setIfInBounds] at busy
      split at busy
      · rename_i same
        rw [← same.1]
        exact lower
      · exact Nat.lt_trans lower (above f busy)
    have resolvedAll := resolveParams_ok preserves
      (fun _ ready => ⟨ready.keeps.constructible_eq, ready.resolving_eq⟩) producers start
    have gathered := (@resolveParams_keeps api _ _ _ (reverseWith_keeps
      (varCount_assembleKeeps fixedOrFuzzed) fuel) target _ start.keeps).2.2
    dsimp only
    generalize api.resolveParams (api.reverseWith fuel) target
      { memo with resolving := memo.resolving.setIfInBounds target true } = result
      at resolvedAll gathered ⊢
    obtain ⟨parts, resolved', ok, depends, memo'⟩ := result
    dsimp only at resolvedAll gathered ⊢
    subst resolvedAll
    have zero := gathered.varCount_assemble fixedOrFuzzed marked
    split
    · contradiction
    split
    · omega
    · rfl

/-- Reverse construction builds a sequence for every constructible function. -/
theorem reverse?_isSome {t : Nat} (marked : api.constructible.getD t false = true) :
    (api.reverse? t).isSome = true := by
  obtain ⟨rank, ranked⟩ := @constructible_ranked api
  -- a fresh memo remembers nothing and resolves nothing
  have unmarked : ∀ f, (Array.replicate api.size false).getD f false = false := by
    intro f
    rw [Array.getD_eq_getD_getElem?, Array.getElem?_replicate]
    split <;> rfl
  refine reverseWith_isSome fixedOrFuzzed ranked (rank t + 1) t (Nat.lt_succ_self _) marked _ _
    (ReverseMemo.keeps_new api _) (fun f _ => unmarked f) ⟨Array.size_replicate, ?_⟩ ?_
  · simp [ReverseMemo.new]
  · intro f busy
    rw [show (ReverseMemo.new api).resolving = Array.replicate api.size false from rfl,
      unmarked] at busy
    cases busy

end Complete

/-- Without variable-length parameters, reverse construction builds for exactly the constructible
functions, and what it builds ends in the target, keeps the borrow discipline, has no dead call
and calls constructible functions only. -/
theorem reverse?_isSome_eq_constructible (catalog : Catalog)
    (fixedOrFuzzed : ∀ f < catalog.size, ∀ k < (catalog.sig f).params.length,
      ((Api.ofCatalog catalog).paramClass f k).kind ≠ .variable) (t : Nat) :
    ((Api.ofCatalog catalog).reverse? t).isSome =
        (Api.ofCatalog catalog).constructible.getD t false ∧
      ∀ s, (Api.ofCatalog catalog).reverse? t = some s →
        s.lastFn? = some t ∧ s.WellFormed (Api.ofCatalog catalog).graph ∧ s.Linear ∧
          s.isDead = false ∧
          ∀ f ∈ s.fns, (Api.ofCatalog catalog).constructible.getD f false = true := by
  have built : (Api.ofCatalog catalog).graph = Graph.build (Api.ofCatalog catalog).catalog := rfl
  refine ⟨?_, fun s found => ?_⟩
  · cases marked : (Api.ofCatalog catalog).constructible.getD t false with
    | true => exact @reverse?_isSome (Api.ofCatalog catalog) fixedOrFuzzed t marked
    | false =>
      -- a sequence built for `t` calls `t` last, and calls constructible functions only
      cases found : (Api.ofCatalog catalog).reverse? t with
      | none => rfl
      | some s =>
        have builtFor := reverse?_builtFor built found
        have called : t ∈ s.fns := by
          apply List.mem_of_getLast?
          rw [← Sequence.lastFn?_eq_getLast?]
          exact builtFor.last
        rw [builtFor.marked t called] at marked
        cases marked
  · have builtFor := reverse?_builtFor built found
    exact ⟨builtFor.last, builtFor.disciplined.wellFormed, builtFor.linear,
      builtFor.linear.isDead_eq_false builtFor.disciplined, builtFor.marked⟩

/-- Two functions that make each other's parameter, and one that makes `B` from nothing: the
cycle has a way out. -/
def cycleCatalog : Catalog where
  entries := #[
    ⟨{ name := "make_a", params := [.path "B" [] false, .prim "u32"],
        output := some (.path "A" [] false) }, false, false⟩,
    ⟨{ name := "make_b", params := [.path "A" [] false], output := some (.path "B" [] false) },
      false, false⟩,
    ⟨{ name := "seed_b", output := some (.path "B" [] false) }, false, false⟩]

/-- `make_b` is reached through `make_a`, which takes its `B` from `seed_b`, as `make_b` is
being resolved. -/
example : ((Api.ofCatalog cycleCatalog).reverse? 1).map Sequence.fns = some [2, 0, 1] := by
  decide +kernel

theorem cycleCatalog_reverse?_isSome_eq_constructible :
    (∀ f < cycleCatalog.size, ∀ k < (cycleCatalog.sig f).params.length,
      ((Api.ofCatalog cycleCatalog).paramClass f k).kind ≠ .variable) ∧
    ((Api.ofCatalog cycleCatalog).reverse? 1).isSome =
        (Api.ofCatalog cycleCatalog).constructible.getD 1 false ∧
      ∀ s, (Api.ofCatalog cycleCatalog).reverse? 1 = some s →
        s.lastFn? = some 1 ∧ s.WellFormed (Api.ofCatalog cycleCatalog).graph ∧ s.Linear ∧
          s.isDead = false ∧
          ∀ f ∈ s.fns, (Api.ofCatalog cycleCatalog).constructible.getD f false = true :=
  have fixedOrFuzzed : ∀ f < cycleCatalog.size, ∀ k < (cycleCatalog.sig f).params.length,
      ((Api.ofCatalog cycleCatalog).paramClass f k).kind ≠ .variable := by decide
  ⟨fixedOrFuzzed, reverse?_isSome_eq_constructible cycleCatalog fixedOrFuzzed 1⟩

end Api

end DriverSynth
