import DriverSynth.Proofs.ReverseComplete

/-! # What the memo of reverse construction changes

Reverse construction remembers what it builds and the failures that did not depend on a function
being resolved. The construction without them (`Api.reverseFresh?`) takes the same steps but
builds every producer afresh. Once producers form a cycle the two differ
(`reverse?_ne_reverseFresh?_loopCatalog`); without a cycle they agree
(`Api.reverse?_eq_reverseFresh?`), since no producer tried is ever being resolved and every
remembered result is a fresh build's (`ReverseMemo.Faithful`).
-/

namespace DriverSynth

-- Two folds over the first `n` numbers whose steps keep a relation between their states end
-- related.
theorem foldl_range_related {α β : Type} {f : α → Nat → α} {g : β → Nat → β} (S : α → β → Prop)
    {n : Nat} {a : α} {b : β} (start : S a b)
    (step : ∀ k x y, k < n → S x y → S (f x k) (g y k)) :
    S ((List.range n).foldl f a) ((List.range n).foldl g b) := by
  induction n with
  | zero => exact start
  | succ n ih =>
    rw [List.range_succ, List.foldl_append, List.foldl_append]
    exact step n _ _ (Nat.lt_succ_self n) (ih fun k x y lt => step k x y (Nat.lt_succ_of_lt lt))

namespace Api

/-- Reverse construction without a memo: the steps of `reverseWith`, with every producer built
afresh under the functions being resolved, and nothing remembered. -/
def reverseFreshWith (api : Api) : Nat → Nat → ReverseMemo → Option Sequence × ReverseMemo × Bool
  | 0, _, memo => (none, memo, false)
  | fuel + 1, target, memo =>
    if !memo.constructible.getD target false then (none, memo, false)
    else if memo.resolving.getD target false then (none, memo, true)
    else
      let memo := { memo with resolving := memo.resolving.setIfInBounds target true }
      let (parts, resolved, ok, depends, memo) :=
        api.resolveParams (api.reverseFreshWith fuel) target memo
      let memo := { memo with resolving := memo.resolving.setIfInBounds target false }
      if !ok then (none, memo, depends)
      else
        let q := api.assemble target parts resolved
        if 1 < q.varCount then (none, memo, depends) else (some q, memo, depends)

/-- A sequence ending in `target`, built backwards without a memo. -/
def reverseFresh? (api : Api) (target : Nat) : Option Sequence :=
  (api.reverseFreshWith (api.size + 1) target (ReverseMemo.new api)).1

/-- Reverse construction may try `p` as a producer for `f`: both are constructible, and `p` is
another function with an edge into a parameter of `f` that is not fuzzable. -/
def DependsOn (api : Api) (f p : Nat) : Prop :=
  api.constructible.getD f false = true ∧ api.constructible.getD p false = true ∧ p ≠ f ∧
    ∃ k < (api.catalog.sig f).params.length, (api.paramClass f k).fuzzable = false ∧
      api.graph.between p f k ≠ []

instance (api : Api) (f p : Nat) : Decidable (api.DependsOn f p) :=
  inferInstanceAs (Decidable (_ ∧ _ ∧ _ ∧ _))

/-- Builds of the producers of parameter `k` of `target` that agree on related memos: the memos
mark a producer alike as being resolved, and when it is not, both builds give the same answer
and related memos. -/
def BuildsAlike (api : Api) (R : ReverseMemo → ReverseMemo → Prop)
    (build₁ build₂ : Nat → ReverseMemo → Option Sequence × ReverseMemo × Bool) (target k : Nat) :
    Prop :=
  ∀ p m₁ m₂, R m₁ m₂ → p < api.size → p ≠ target → m₁.constructible.getD p false = true →
    api.graph.between p target k ≠ [] →
    m₁.resolving.getD p false = m₂.resolving.getD p false ∧
      (m₁.resolving.getD p false = false →
        (build₁ p m₁).1 = (build₂ p m₂).1 ∧ R (build₁ p m₁).2.1 (build₂ p m₂).2.1)

variable {api : Api}

section Congruence

variable {R : ReverseMemo → ReverseMemo → Prop}
  {build₁ build₂ : Nat → ReverseMemo → Option Sequence × ReverseMemo × Bool}
  (marks : ∀ m₁ m₂, R m₁ m₂ → m₁.constructible = m₂.constructible)
include marks

/-- Two searches for a producer whose builds agree find the same producer, and leave related
memos. -/
theorem findProducer_congr {target k : Nat} (alike : api.BuildsAlike R build₁ build₂ target k)
    (d₁ d₂ : Bool) {m₁ m₂ : ReverseMemo} (related : R m₁ m₂) :
    (api.findProducer build₁ target k d₁ m₁).1 = (api.findProducer build₂ target k d₂ m₂).1 ∧
      R (api.findProducer build₁ target k d₁ m₁).2.2
        (api.findProducer build₂ target k d₂ m₂).2.2 := by
  unfold findProducer
  refine foldl_range_related (fun (x y : Option (Sequence × Nat) × Bool × ReverseMemo) =>
    x.1 = y.1 ∧ R x.2.2 y.2.2) ⟨rfl, related⟩ ?_
  rintro p ⟨found, e₁, n₁⟩ ⟨found', e₂, n₂⟩ bound ⟨same, rel⟩
  dsimp only at same rel ⊢
  subst same
  have constructibleEq := marks n₁ n₂ rel
  -- both searches skip the same producers
  by_cases skip : (found.isSome || p == target || !n₁.constructible.getD p false) = true
  · rw [if_pos skip, if_pos (constructibleEq ▸ skip)]
    exact ⟨rfl, rel⟩
  rw [if_neg skip, if_neg (constructibleEq ▸ skip)]
  simp only [Bool.or_eq_true, beq_iff_eq, Bool.not_eq_true', not_or, Bool.not_eq_false] at skip
  obtain ⟨⟨-, other⟩, marked⟩ := skip
  cases between : api.graph.between p target k with
  | nil => exact ⟨rfl, rel⟩
  | cons edge rest =>
    obtain ⟨busyEq, builds⟩ :=
      alike p n₁ n₂ rel bound other marked (by rw [between]; exact List.cons_ne_nil _ _)
    dsimp only
    by_cases busy : n₁.resolving.getD p false = true
    · rw [if_pos busy, if_pos (busyEq ▸ busy)]
      exact ⟨rfl, rel⟩
    rw [if_neg busy, if_neg (busyEq ▸ busy)]
    obtain ⟨answer, rel'⟩ := builds (by simpa using busy)
    rcases b₁ : build₁ p n₁ with ⟨sub, o₁, c₁⟩
    rcases b₂ : build₂ p n₂ with ⟨sub', o₂, c₂⟩
    rw [b₁, b₂] at answer rel'
    dsimp only at answer rel' ⊢
    subst answer
    cases sub <;> exact ⟨rfl, rel'⟩

/-- Resolving the parameters of a target with builds that agree on every producer tried gives the
same parts, the same resolved parameters and the same verdict, and leaves related memos. -/
theorem resolveParams_congr {target : Nat}
    (alike : ∀ k < (api.catalog.sig target).params.length,
      (api.paramClass target k).fuzzable = false → api.BuildsAlike R build₁ build₂ target k)
    {m₁ m₂ : ReverseMemo} (related : R m₁ m₂) :
    (api.resolveParams build₁ target m₁).1 = (api.resolveParams build₂ target m₂).1 ∧
      (api.resolveParams build₁ target m₁).2.1 = (api.resolveParams build₂ target m₂).2.1 ∧
      (api.resolveParams build₁ target m₁).2.2.1 = (api.resolveParams build₂ target m₂).2.2.1 ∧
      R (api.resolveParams build₁ target m₁).2.2.2.2
        (api.resolveParams build₂ target m₂).2.2.2.2 := by
  unfold resolveParams
  refine foldl_range_related
    (fun (x y : List Sequence × List Resolved × Bool × Bool × ReverseMemo) =>
      x.1 = y.1 ∧ x.2.1 = y.2.1 ∧ x.2.2.1 = y.2.2.1 ∧ R x.2.2.2.2 y.2.2.2.2)
    ⟨rfl, rfl, rfl, related⟩ ?_
  rintro k ⟨parts, resolved, ok, d₁, n₁⟩ ⟨parts', resolved', ok', d₂, n₂⟩ below
    ⟨same₁, same₂, same₃, rel⟩
  dsimp only at same₁ same₂ same₃ rel ⊢
  subst same₁ same₂ same₃
  by_cases skip : (!ok || (api.paramClass target k).fuzzable) = true
  · rw [if_pos skip, if_pos skip]
    exact ⟨rfl, rfl, rfl, rel⟩
  rw [if_neg skip, if_neg skip]
  have notFuzzable : (api.paramClass target k).fuzzable = false := by
    simp only [Bool.or_eq_true, Bool.not_eq_true', not_or, Bool.not_eq_false] at skip
    simpa using skip.2
  obtain ⟨found, rel'⟩ := findProducer_congr marks (alike k below notFuzzable) d₁ d₂ rel
  rcases f₁ : api.findProducer build₁ target k d₁ n₁ with ⟨answer, e₁, o₁⟩
  rcases f₂ : api.findProducer build₂ target k d₂ n₂ with ⟨answer', e₂, o₂⟩
  rw [f₁, f₂] at found rel'
  dsimp only at found rel' ⊢
  subst found
  rcases answer with _ | ⟨q, edge⟩ <;> exact ⟨rfl, rfl, rfl, rel'⟩

end Congruence

/-- Resolving parameters with builds that leave the memo as they found it leaves it too. -/
theorem resolveParams_frame {build : Nat → ReverseMemo → Option Sequence × ReverseMemo × Bool}
    (frame : ∀ f memo, (build f memo).2.1 = memo) (target : Nat) (memo : ReverseMemo) :
    (api.resolveParams build target memo).2.2.2.2 = memo :=
  (resolveParams_congr (R := fun a b => a = memo ∧ b = memo)
    (fun _ _ same => by rw [same.1, same.2])
    (fun _ _ _ p _ _ same _ _ _ _ => by
      obtain ⟨rfl, rfl⟩ := same
      exact ⟨rfl, fun _ => ⟨rfl, frame p _, frame p _⟩⟩)
    ⟨rfl, rfl⟩).2.2.2.1

/-- A fresh build leaves the memo as it found it. -/
theorem reverseFreshWith_memo :
    ∀ fuel target memo, (api.reverseFreshWith fuel target memo).2.1 = memo
  | 0, _, _ => rfl
  | fuel + 1, target, memo => by
    rw [reverseFreshWith]
    split
    · rfl
    split
    · rfl
    rename_i idle
    have kept := @resolveParams_frame api _ (reverseFreshWith_memo fuel) target
      { memo with resolving := memo.resolving.setIfInBounds target true }
    dsimp only
    generalize api.resolveParams (api.reverseFreshWith fuel) target
      { memo with resolving := memo.resolving.setIfInBounds target true } = result at kept ⊢
    obtain ⟨parts, resolved, ok, depends, memo'⟩ := result
    dsimp only at kept ⊢
    subst kept
    -- the target is unmarked again
    have restored : (memo.resolving.setIfInBounds target true).setIfInBounds target false =
        memo.resolving :=
      setIfInBounds_unmark (by simpa using idle)
    split
    · simp [restored]
    split <;> simp [restored]

/-- No function ranked at or below `f` is marked as being resolved. -/
def Clear (rank : Nat → Nat) (f : Nat) (resolving : Array Bool) : Prop :=
  ∀ g, rank g ≤ rank f → resolving.getD g false = false

/-- Marking a function as being resolved keeps the functions ranked below it clear. -/
theorem Clear.mark {rank : Nat → Nat} {f p : Nat} {resolving : Array Bool}
    (clear : Clear rank f resolving) (below : rank p < rank f) :
    Clear rank p (resolving.setIfInBounds f true) := by
  intro g low
  have other : ¬(f = g ∧ f < resolving.size) := fun same => by rw [same.1] at below; omega
  rw [getD_setIfInBounds, if_neg other]
  exact clear g (by omega)

theorem clear_new (api : Api) (rank : Nat → Nat) (f : Nat) :
    Clear rank f (ReverseMemo.new api).resolving := by
  intro g _
  simp only [ReverseMemo.new, Array.getD_eq_getD_getElem?, Array.getElem?_replicate]
  split <;> rfl

theorem roomy_new (api : Api) : api.Roomy (api.size + 1) (ReverseMemo.new api).resolving :=
  ⟨by simp [ReverseMemo.new, size], by simp [ReverseMemo.new]⟩

end Api

namespace ReverseMemo

/-- What a memo remembers is what a fresh build gives: it has the constructible marks, every
sequence it holds for a function is that function's fresh build, and every function it marks
unreachable has none. -/
structure Faithful (api : Api) (memo : ReverseMemo) : Prop
    extends memo.Keeps api.constructible (fun f q => api.reverseFresh? f = some q) where
  unreachable_fresh : ∀ f, memo.unreachable.getD f false = true → api.reverseFresh? f = none

variable {api : Api} {memo : ReverseMemo}

theorem faithful_new (api : Api) : (new api).Faithful api where
  toKeeps := keeps_new api _
  unreachable_fresh := by
    intro f marked
    simp only [new, Array.getD_eq_getD_getElem?, Array.getElem?_replicate] at marked
    split at marked <;> simp at marked

/-- The marks of what is being resolved do not touch what a memo remembers. -/
theorem Faithful.resolving (faithful : memo.Faithful api) (resolving : Array Bool) :
    ({ memo with resolving } : ReverseMemo).Faithful api :=
  ⟨faithful.marks resolving memo.unreachable, faithful.unreachable_fresh⟩

/-- Remembering a target's fresh build keeps the memo faithful. -/
theorem Faithful.remember (faithful : memo.Faithful api) {target : Nat} {q : Sequence}
    (fresh : api.reverseFresh? target = some q) :
    ({ memo with built := memo.built.setIfInBounds target (some q) } : ReverseMemo).Faithful api :=
  ⟨faithful.toKeeps.remember fresh, faithful.unreachable_fresh⟩

/-- Marking unreachable a target without a fresh build keeps the memo faithful. -/
theorem Faithful.forget (faithful : memo.Faithful api) {target : Nat}
    (fresh : api.reverseFresh? target = none) :
    ({ memo with unreachable := memo.unreachable.setIfInBounds target true } :
      ReverseMemo).Faithful api := by
  refine ⟨faithful.marks memo.resolving _, fun f marked => ?_⟩
  rw [getD_setIfInBounds] at marked
  split at marked
  · rename_i same
    rw [← same.1]
    exact fresh
  · exact faithful.unreachable_fresh f marked

/-- A failed build leaves the memo faithful: it is kept as it is when the failure depends on a
function being resolved, and the target is marked unreachable otherwise. -/
theorem Faithful.fail (faithful : memo.Faithful api) {target : Nat}
    (fresh : api.reverseFresh? target = none) (depends : Bool) :
    (if depends then memo
      else { memo with unreachable := memo.unreachable.setIfInBounds target true }).Faithful api := by
  split
  · exact faithful
  · exact faithful.forget fresh

end ReverseMemo

namespace Api

variable {api : Api}

section Acyclic

variable {rank : Nat → Nat} (ranked : ∀ f p, api.DependsOn f p → rank p < rank f)
include ranked

/-- A fresh build sees nothing of the functions being resolved above its target: from memos with
the constructible marks, enough fuel and no function ranked at or below the target being
resolved, it gives the same answer. -/
theorem reverseFreshWith_congr :
    ∀ fuel₁ fuel₂ target (m₁ m₂ : ReverseMemo),
      m₁.constructible = api.constructible → m₂.constructible = api.constructible →
      api.Roomy fuel₁ m₁.resolving → api.Roomy fuel₂ m₂.resolving →
      Clear rank target m₁.resolving → Clear rank target m₂.resolving →
      (api.reverseFreshWith fuel₁ target m₁).1 = (api.reverseFreshWith fuel₂ target m₂).1
  | 0, _, _, _, _, _, _, roomy, _, _, _ => absurd roomy.2 (Nat.not_lt_zero _)
  | _ + 1, 0, _, _, _, _, _, _, roomy, _, _ => absurd roomy.2 (Nat.not_lt_zero _)
  | fuel₁ + 1, fuel₂ + 1, target, m₁, m₂, c₁, c₂, roomy₁, roomy₂, clear₁, clear₂ => by
    rw [reverseFreshWith, reverseFreshWith]
    by_cases marked : api.constructible.getD target false = true
    swap
    · rw [if_pos (by rw [c₁]; simpa using marked), if_pos (by rw [c₂]; simpa using marked)]
    have go₁ : ¬(!m₁.constructible.getD target false) = true := by rw [c₁, marked]; decide
    have go₂ : ¬(!m₂.constructible.getD target false) = true := by rw [c₂, marked]; decide
    have idle₁ : ¬m₁.resolving.getD target false = true := by
      rw [clear₁ target (Nat.le_refl _)]; decide
    have idle₂ : ¬m₂.resolving.getD target false = true := by
      rw [clear₂ target (Nat.le_refl _)]; decide
    rw [if_neg go₁, if_neg go₂, if_neg idle₁, if_neg idle₂]
    have bound := lt_size_of_constructible marked
    -- every producer tried ranks below the target: neither memo marks it, and by induction the
    -- fresh builds of it agree
    have agree := @resolveParams_congr api
      (fun a b => a = { m₁ with resolving := m₁.resolving.setIfInBounds target true } ∧
        b = { m₂ with resolving := m₂.resolving.setIfInBounds target true })
      (api.reverseFreshWith fuel₁) (api.reverseFreshWith fuel₂)
      (fun _ _ same => by rw [same.1, same.2]; exact c₁.trans c₂.symm) target
      (fun k below notFuzzable p a b same _ other producer linked => by
        obtain ⟨rfl, rfl⟩ := same
        have lower := ranked target p ⟨marked, c₁ ▸ producer, other, k, below, notFuzzable, linked⟩
        have idle₁ := clear₁.mark lower p (Nat.le_refl _)
        have idle₂ := clear₂.mark lower p (Nat.le_refl _)
        refine ⟨idle₁.trans idle₂.symm, fun _ => ⟨?_, reverseFreshWith_memo _ _ _,
          reverseFreshWith_memo _ _ _⟩⟩
        exact reverseFreshWith_congr fuel₁ fuel₂ p _ _ c₁ c₂
          (roomy₁.mark bound (clear₁ target (Nat.le_refl _)))
          (roomy₂.mark bound (clear₂ target (Nat.le_refl _)))
          (clear₁.mark lower) (clear₂.mark lower))
      _ _ ⟨rfl, rfl⟩
    dsimp only
    generalize api.resolveParams (api.reverseFreshWith fuel₁) target
      { m₁ with resolving := m₁.resolving.setIfInBounds target true } = r₁ at agree ⊢
    generalize api.resolveParams (api.reverseFreshWith fuel₂) target
      { m₂ with resolving := m₂.resolving.setIfInBounds target true } = r₂ at agree ⊢
    obtain ⟨parts, resolved, ok, d₁, o₁⟩ := r₁
    obtain ⟨parts', resolved', ok', d₂, o₂⟩ := r₂
    obtain ⟨rfl, rfl, rfl, -⟩ := agree
    cases ok
    · rfl
    · by_cases few : 1 < (api.assemble target parts resolved).varCount <;> simp [few]

/-- With enough fuel and no function ranked at or below the target being resolved, a fresh build
gives what `reverseFresh?` gives. -/
theorem reverseFreshWith_eq {fuel target : Nat} {memo : ReverseMemo}
    (marks : memo.constructible = api.constructible) (roomy : api.Roomy fuel memo.resolving)
    (clear : Clear rank target memo.resolving) :
    (api.reverseFreshWith fuel target memo).1 = api.reverseFresh? target :=
  reverseFreshWith_congr ranked fuel (api.size + 1) target memo (ReverseMemo.new api) marks rfl
    roomy (roomy_new api) clear (clear_new api rank target)

/-- Reverse construction with a faithful memo, enough fuel, and no function ranked at or below
the target being resolved, gives the target's fresh build, and leaves a faithful memo with the
marks of the functions being resolved as it found them. -/
theorem reverseWith_faithful :
    ∀ fuel target (memo : ReverseMemo), memo.Faithful api → api.Roomy fuel memo.resolving →
      Clear rank target memo.resolving →
      (api.reverseWith fuel target memo).1 = api.reverseFresh? target ∧
        (api.reverseWith fuel target memo).2.1.Faithful api ∧
        (api.reverseWith fuel target memo).2.1.resolving = memo.resolving
  | 0, _, _, _, roomy, _ => absurd roomy.2 (Nat.not_lt_zero _)
  | fuel + 1, target, memo, faithful, roomy, clear => by
    -- the fresh build from the same memo is what `reverseFresh?` gives; follow both side by side
    have fresh := reverseFreshWith_eq ranked faithful.constructible_eq roomy clear
    rw [reverseWith]
    rw [reverseFreshWith] at fresh
    by_cases marked : api.constructible.getD target false = true
    swap
    · have skip : (!memo.constructible.getD target false) = true := by
        rw [faithful.constructible_eq]; simpa using marked
      rw [if_pos skip] at fresh
      rw [if_pos (by rw [skip]; rfl)]
      exact ⟨fresh, faithful, rfl⟩
    have go : ¬(!memo.constructible.getD target false) = true := by
      rw [faithful.constructible_eq, marked]; decide
    rw [if_neg go] at fresh
    by_cases unreachable : memo.unreachable.getD target false = true
    · rw [if_pos (by rw [unreachable, Bool.or_true])]
      exact ⟨(faithful.unreachable_fresh target unreachable).symm, faithful, rfl⟩
    have stay : ¬(!memo.constructible.getD target false || memo.unreachable.getD target false) =
        true := by
      rw [faithful.constructible_eq, marked]; simpa using unreachable
    rw [if_neg stay]
    split
    · rename_i q cached
      exact ⟨(faithful.built target q cached).symm, faithful, rfl⟩
    · dsimp only at fresh ⊢
      have idle : ¬memo.resolving.getD target false = true := by
        rw [clear target (Nat.le_refl _)]; decide
      rw [if_neg idle] at fresh ⊢
      have bound := lt_size_of_constructible marked
      -- memo and fresh builds of a producer tried agree, by induction; the memo stays faithful
      have agree := @resolveParams_congr api
        (fun a b => a.Faithful api ∧
          a.resolving = memo.resolving.setIfInBounds target true ∧
          b = { memo with resolving := memo.resolving.setIfInBounds target true })
        (api.reverseWith fuel) (api.reverseFreshWith fuel)
        (fun _ _ related => by
          rw [related.2.2, related.1.constructible_eq, faithful.constructible_eq])
        target
        (fun k below notFuzzable p a b related _ other producer linked => by
          obtain ⟨kept, resolvingEq, rfl⟩ := related
          have lower := ranked target p
            ⟨marked, kept.constructible_eq ▸ producer, other, k, below, notFuzzable, linked⟩
          have roomy' := roomy.mark bound (clear target (Nat.le_refl _))
          refine ⟨by rw [resolvingEq], fun _ => ?_⟩
          obtain ⟨built, kept', resolvingEq'⟩ := reverseWith_faithful fuel p a kept
            (resolvingEq ▸ roomy') (resolvingEq ▸ clear.mark lower)
          refine ⟨?_, kept', resolvingEq'.trans resolvingEq, reverseFreshWith_memo _ _ _⟩
          have freshP : (api.reverseFreshWith fuel p
              { memo with resolving := memo.resolving.setIfInBounds target true }).1 =
              api.reverseFresh? p :=
            reverseFreshWith_eq ranked faithful.constructible_eq roomy' (clear.mark lower)
          rw [built, freshP])
        { memo with resolving := memo.resolving.setIfInBounds target true }
        { memo with resolving := memo.resolving.setIfInBounds target true }
        ⟨faithful.resolving _, rfl, rfl⟩
      generalize api.resolveParams (api.reverseWith fuel) target
        { memo with resolving := memo.resolving.setIfInBounds target true } = r₁ at agree ⊢
      generalize api.resolveParams (api.reverseFreshWith fuel) target
        { memo with resolving := memo.resolving.setIfInBounds target true } = r₂ at agree fresh
      obtain ⟨parts, resolved, ok, d₁, o₁⟩ := r₁
      obtain ⟨parts', resolved', ok', d₂, o₂⟩ := r₂
      obtain ⟨rfl, rfl, rfl, kept, resolvingEq, -⟩ := agree
      dsimp only at fresh kept resolvingEq ⊢
      -- the target is unmarked again, and what the memo then remembers is the fresh answer
      have restored : o₁.resolving.setIfInBounds target false = memo.resolving := by
        rw [resolvingEq]
        exact setIfInBounds_unmark (by simpa using idle)
      have unmarked := kept.resolving (o₁.resolving.setIfInBounds target false)
      cases ok
      · simp only [Bool.not_false, ↓reduceIte] at fresh ⊢
        exact ⟨fresh, unmarked.fail fresh.symm d₁, by split <;> exact restored⟩
      · simp only [Bool.not_true, Bool.false_eq_true, ↓reduceIte] at fresh ⊢
        by_cases few : 1 < (api.assemble target parts resolved).varCount
        · simp only [few, ↓reduceIte] at fresh ⊢
          exact ⟨fresh, unmarked.fail fresh.symm d₁, by split <;> exact restored⟩
        · simp only [few, ↓reduceIte] at fresh ⊢
          exact ⟨fresh, unmarked.remember fresh.symm, restored⟩

/-- Without a cycle among producers, the memo is transparent: ranking the functions so that every
producer that reverse construction may try for a function ranks below it, reverse construction
with its memo gives, for every target, what it gives building every producer afresh. -/
theorem reverse?_eq_reverseFresh? (target : Nat) :
    api.reverse? target = api.reverseFresh? target :=
  (reverseWith_faithful ranked (api.size + 1) target (ReverseMemo.new api)
    (ReverseMemo.faithful_new api) (roomy_new api) (clear_new api rank target)).1

end Acyclic

end Api

/-- Four functions and a target: `y` turns a `B` into an `A`, `x` an `A` into a `B`, `n` makes an
`A`, `m` makes a `B`, and `t` takes an `A` and a `B`. `x` and `y` feed each other. -/
def loopCatalog : Catalog where
  entries := #[
    ⟨{ name := "y", params := [.path "B" [] false], output := some (.path "A" [] false) },
      false, false⟩,
    ⟨{ name := "x", params := [.path "A" [] false], output := some (.path "B" [] false) },
      false, false⟩,
    ⟨{ name := "n", output := some (.path "A" [] false) }, false, false⟩,
    ⟨{ name := "m", output := some (.path "B" [] false) }, false, false⟩,
    ⟨{ name := "t", params := [.path "A" [] false, .path "B" [] false] }, false, false⟩]

/-- Over `loopCatalog` the memo changes what is built for `t`: it hands back the `[n, x]` built for
`x` while `y` was being resolved, where a fresh build of `x` takes its `A` from `y`. -/
theorem reverse?_ne_reverseFresh?_loopCatalog :
    (Api.ofCatalog loopCatalog).reverse? 4 ≠ (Api.ofCatalog loopCatalog).reverseFresh? 4 := by
  intro same
  have calls := congrArg (Option.map Sequence.fns) same
  revert calls
  decide +kernel

/-- Over `chainCatalog` every producer has a lower id than the function it feeds, so the memo of
reverse construction changes nothing there. -/
theorem chainCatalog_reverse?_eq_reverseFresh? :
    (∀ f p, (Api.ofCatalog chainCatalog).DependsOn f p → id p < id f) ∧
      (Api.ofCatalog chainCatalog).reverse? 2 = (Api.ofCatalog chainCatalog).reverseFresh? 2 := by
  have within : ∀ f < 3, ∀ p < 3, (Api.ofCatalog chainCatalog).DependsOn f p → p < f := by
    decide +kernel
  have ranked : ∀ f p, (Api.ofCatalog chainCatalog).DependsOn f p → id p < id f :=
    fun f p depends => within f (Api.lt_size_of_constructible depends.1) p
      (Api.lt_size_of_constructible depends.2.1) depends
  exact ⟨ranked, Api.reverse?_eq_reverseFresh? ranked 2⟩

end DriverSynth
