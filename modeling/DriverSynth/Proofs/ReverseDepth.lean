import DriverSynth.Proofs.ReverseCache
import Mathlib.Data.Bool.Count

/-! # Reverse construction terminates

A build marks its target as being resolved before it looks for producers and unmarks it before it
returns (`Api.reverseWith_resolving`), and builds only producers not being resolved
(`Api.findProducer_eq_of_agree`). So the recursion is at most as deep as there are functions not
being resolved, and any two fuels above that depth give the same answer
(`Api.reverseWith_depth_bounded`).
-/

namespace DriverSynth

namespace Api

variable {api : Api}

/-- Reverse construction returns the marks of the functions being resolved as it found them. -/
theorem reverseWith_resolving (fuel target : Nat) (memo : ReverseMemo) :
    (api.reverseWith fuel target memo).2.1.resolving = memo.resolving := by
  -- every memo keeps the property that holds of every sequence
  have closed : api.AssembleKeeps memo.constructible fun _ _ => True := fun _ _ _ _ _ _ => trivial
  have keeps : memo.Keeps memo.constructible fun _ _ => True := ⟨rfl, fun _ _ _ => trivial⟩
  exact (reverseWith_keeps closed fuel target memo keeps).2.1

section Agreement

variable {resolving : Array Bool}
  {build₁ build₂ : Nat → ReverseMemo → Option Sequence × ReverseMemo × Bool}
  (agree : ∀ p m, p < api.size → m.resolving = resolving → resolving.getD p false = false →
    build₁ p m = build₂ p m ∧ (build₁ p m).2.1.resolving = resolving)
include agree

/-- The search for a producer builds only producers of the catalog that are not being resolved:
two builds that agree on those, and keep the marks of the functions being resolved, find the
same producer and leave the same memo. -/
theorem findProducer_eq_of_agree (target k : Nat) (depends : Bool) {memo : ReverseMemo}
    (marks : memo.resolving = resolving) :
    api.findProducer build₁ target k depends memo = api.findProducer build₂ target k depends memo ∧
      (api.findProducer build₁ target k depends memo).2.2.resolving = resolving := by
  unfold findProducer
  refine foldl_range_related (fun x y : Option (Sequence × Nat) × Bool × ReverseMemo =>
    x = y ∧ x.2.2.resolving = resolving) ⟨rfl, marks⟩ ?_
  rintro p ⟨found, depends', memo'⟩ _ bound ⟨rfl, frame⟩
  dsimp only at frame ⊢
  by_cases skip : (found.isSome || p == target || !memo'.constructible.getD p false) = true
  · rw [if_pos skip, if_pos skip]
    exact ⟨rfl, frame⟩
  rw [if_neg skip, if_neg skip]
  cases api.graph.between p target k with
  | nil => exact ⟨rfl, frame⟩
  | cons edge rest =>
    dsimp only
    by_cases busy : memo'.resolving.getD p false = true
    · rw [if_pos busy, if_pos busy]
      exact ⟨rfl, frame⟩
    rw [if_neg busy, if_neg busy]
    -- the producer is built, and only here do the builds meet
    obtain ⟨same, kept⟩ := agree p memo' bound frame (by rw [← frame]; simpa using busy)
    rw [← same]
    refine ⟨rfl, ?_⟩
    rcases built : build₁ p memo' with ⟨sub, memo'', dep⟩
    rw [built] at kept
    cases sub <;> exact kept

/-- Resolving the parameters with builds that agree on the producers not being resolved gives the
same parts, verdicts and memo. -/
theorem resolveParams_eq_of_agree (target : Nat) {memo : ReverseMemo}
    (marks : memo.resolving = resolving) :
    api.resolveParams build₁ target memo = api.resolveParams build₂ target memo := by
  unfold resolveParams
  refine (foldl_range_related
    (fun x y : List Sequence × List Resolved × Bool × Bool × ReverseMemo =>
      x = y ∧ x.2.2.2.2.resolving = resolving) ⟨rfl, marks⟩ ?_).1
  rintro k ⟨parts, resolved, ok, depends, memo'⟩ _ _ ⟨rfl, frame⟩
  dsimp only at frame ⊢
  by_cases skip : (!ok || (api.paramClass target k).fuzzable) = true
  · rw [if_pos skip, if_pos skip]
    exact ⟨rfl, frame⟩
  rw [if_neg skip, if_neg skip]
  obtain ⟨same, kept⟩ := findProducer_eq_of_agree agree target k depends frame
  rw [← same]
  refine ⟨rfl, ?_⟩
  rcases found : api.findProducer build₁ target k depends memo' with ⟨answer, depends'', memo''⟩
  rw [found] at kept
  rcases answer with _ | ⟨q, edge⟩ <;> exact kept

end Agreement

/-- From a memo whose resolving marks cover the catalog, two fuels above the number of functions
not being resolved build alike: each level marks its target before it builds the producers. -/
theorem reverseWith_congr_of_roomy :
    ∀ fuel₁ fuel₂ target (memo : ReverseMemo), target < api.size →
      api.Roomy fuel₁ memo.resolving → api.Roomy fuel₂ memo.resolving →
      api.reverseWith fuel₁ target memo = api.reverseWith fuel₂ target memo
  | 0, _, _, _, _, roomy, _ => absurd roomy.2 (Nat.not_lt_zero _)
  | _ + 1, 0, _, _, _, _, roomy => absurd roomy.2 (Nat.not_lt_zero _)
  | fuel₁ + 1, fuel₂ + 1, target, memo, bound, roomy₁, roomy₂ => by
    by_cases busy : memo.resolving.getD target false = true
    · -- a function being resolved is cut at once, whatever the fuel
      rw [reverseWith, reverseWith]
      simp only [busy, ↓reduceIte]
    have idle : memo.resolving.getD target false = false := by simpa using busy
    -- marking the target leaves fuel for every producer on both sides
    have marking₁ := roomy₁.mark bound idle
    have marking₂ := roomy₂.mark bound idle
    have same := @resolveParams_eq_of_agree api (memo.resolving.setIfInBounds target true)
      (api.reverseWith fuel₁) (api.reverseWith fuel₂)
      (fun p m below marks _ => ⟨reverseWith_congr_of_roomy fuel₁ fuel₂ p m below
          (marks ▸ marking₁) (marks ▸ marking₂), (reverseWith_resolving fuel₁ p m).trans marks⟩)
      target { memo with resolving := memo.resolving.setIfInBounds target true } rfl
    rw [reverseWith, reverseWith]
    simp only [same]

/-- Reverse construction terminates whatever cycles the producers form: from a memo whose resolving
marks cover the catalog, every fuel above the number of functions not being resolved gives the
same answer, and the resolving marks come back as they were. -/
theorem reverseWith_depth_bounded {target : Nat} (bound : target < api.size)
    {memo : ReverseMemo} (sized : memo.resolving.size = api.size) {fuel : Nat}
    (enough : api.size - memo.resolving.toList.count true < fuel) :
    api.reverseWith fuel target memo =
        api.reverseWith (api.size - memo.resolving.toList.count true + 1) target memo ∧
      (api.reverseWith fuel target memo).2.1.resolving = memo.resolving := by
  -- the functions not being resolved are the unmarked entries
  have unmarked :
      memo.resolving.toList.count false = api.size - memo.resolving.toList.count true := by
    have split := List.count_true_add_count_false memo.resolving.toList
    rw [Array.length_toList, sized] at split
    omega
  refine ⟨reverseWith_congr_of_roomy fuel _ target memo bound ⟨sized, by omega⟩
    ⟨sized, by omega⟩, reverseWith_resolving fuel target memo⟩

end Api

/-- Over `loopCatalog`, where `x` and `y` feed each other, reverse construction of `t` from a
fresh memo needs no more fuel than there are functions. -/
theorem loopCatalog_reverseWith_depth_bounded :
    4 < (Api.ofCatalog loopCatalog).size ∧
      (ReverseMemo.new (Api.ofCatalog loopCatalog)).resolving.size =
        (Api.ofCatalog loopCatalog).size ∧
      (Api.ofCatalog loopCatalog).size -
          (ReverseMemo.new (Api.ofCatalog loopCatalog)).resolving.toList.count true <
        (Api.ofCatalog loopCatalog).size + 1 ∧
      ((Api.ofCatalog loopCatalog).reverseWith ((Api.ofCatalog loopCatalog).size + 1) 4
          (ReverseMemo.new (Api.ofCatalog loopCatalog)) =
        (Api.ofCatalog loopCatalog).reverseWith ((Api.ofCatalog loopCatalog).size -
          (ReverseMemo.new (Api.ofCatalog loopCatalog)).resolving.toList.count true + 1) 4
          (ReverseMemo.new (Api.ofCatalog loopCatalog)) ∧
        ((Api.ofCatalog loopCatalog).reverseWith ((Api.ofCatalog loopCatalog).size + 1) 4
          (ReverseMemo.new (Api.ofCatalog loopCatalog))).2.1.resolving =
          (ReverseMemo.new (Api.ofCatalog loopCatalog)).resolving) := by
  have bound : 4 < (Api.ofCatalog loopCatalog).size := by decide
  have sized : (ReverseMemo.new (Api.ofCatalog loopCatalog)).resolving.size =
      (Api.ofCatalog loopCatalog).size := by simp [ReverseMemo.new]
  have enough : (Api.ofCatalog loopCatalog).size -
      (ReverseMemo.new (Api.ofCatalog loopCatalog)).resolving.toList.count true <
      (Api.ofCatalog loopCatalog).size + 1 := by omega
  exact ⟨bound, sized, enough, Api.reverseWith_depth_bounded bound sized enough⟩

end DriverSynth
