import Mathlib.Data.Finset.Card
import Mathlib.Data.Set.Function
import Mathlib.Tactic.Common

/-!
# Assigning Items to Slots

Whether some items fit into slots, each into one that suits it and no two into
the same. A placing strategy is complete when it fails only where there is no
assignment at all. That there is one is shown by the strategy's own result, and
that there is none by a set of slots which too many items are confined to.

## Main definitions

* `Assignable`: The items fit.

## Theorems

* `not_assignable_of_confined`: Too many items for the slots they are confined
  to.
* `assignable_iff_of_bijOn`: The same items under other names.
-/

namespace LocalKeyValue

namespace Assign

variable {ι κ σ : Type*}

/-- Each item goes into a slot that suits it, and no two into the same. -/
def Assignable (items : Set ι) (suits : ι → σ → Prop) : Prop :=
  ∃ f : ι → σ, (∀ a ∈ items, suits a (f a)) ∧ Set.InjOn f items

/-- There is no assignment if some items are confined to fewer slots than there
    are of them. -/
theorem not_assignable_of_confined (items : Set ι) (suits : ι → σ → Prop) (I : Finset ι)
    (A : Finset σ) (hI : ∀ a ∈ I, a ∈ items) (hconfined : ∀ a ∈ I, ∀ s, suits a s → s ∈ A)
    (hcard : A.card < I.card) : ¬ Assignable items suits := by
  rintro ⟨f, hsuits, hinj⟩
  have hle : I.card ≤ A.card := by
    refine Finset.card_le_card_of_injOn f (fun a ha => ?_) (fun a ha b hb hab => ?_)
    · exact hconfined a ha (f a) (hsuits a (hI a ha))
    · exact hinj (hI a ha) (hI b hb) hab
  omega

/-- Items can be named otherwise. -/
theorem assignable_of_mapsTo (items : Set ι) (items' : Set κ) (suits : ι → σ → Prop)
    (suits' : κ → σ → Prop) (g : ι → κ) (hmaps : Set.MapsTo g items items')
    (hinj : Set.InjOn g items) (hsuits : ∀ a ∈ items, ∀ s, suits' (g a) s → suits a s)
    (h : Assignable items' suits') : Assignable items suits := by
  rcases h with ⟨f, hf, hfinj⟩
  refine ⟨f ∘ g, fun a ha => hsuits a ha _ (hf (g a) (hmaps ha)), fun a ha b hb hab => ?_⟩
  exact hinj ha hb (hfinj (hmaps ha) (hmaps hb) hab)

theorem assignable_iff_of_bijOn [Nonempty ι] (items : Set ι) (items' : Set κ)
    (suits : ι → σ → Prop) (suits' : κ → σ → Prop) (g : ι → κ) (hg : Set.BijOn g items items')
    (hsuits : ∀ a ∈ items, ∀ s, suits a s ↔ suits' (g a) s) :
    Assignable items suits ↔ Assignable items' suits' := by
  constructor
  · intro h
    -- Each name of the second kind is one of the first.
    have hinv : ∀ b ∈ items', g (Function.invFunOn g items b) = b := fun b hb =>
      Function.invFunOn_eq (hg.surjOn hb)
    have hmem : ∀ b ∈ items', Function.invFunOn g items b ∈ items := fun b hb =>
      Function.invFunOn_mem (hg.surjOn hb)
    refine assignable_of_mapsTo items' items suits' suits (Function.invFunOn g items) hmem
      (fun b hb c hc hbc => ?_) (fun b hb s hs => ?_) h
    · rw [← hinv b hb, ← hinv c hc, hbc]
    · rw [← hinv b hb]
      exact (hsuits _ (hmem b hb) s).mp hs
  · exact assignable_of_mapsTo items items' suits suits' g hg.mapsTo hg.injOn
      (fun a ha s hs => (hsuits a ha s).mpr hs)

end Assign

end LocalKeyValue
