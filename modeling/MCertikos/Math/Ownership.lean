/-
# Ownership of resources

A table of owners gives each slot at most one resource.
-/

import Mathlib.Data.Finset.Card
import Mathlib.Logic.Function.Basic

namespace MCertikos.Math

open Function

universe u v

variable {κ : Type u} {β : Type v}

structure Owns (owner : κ → Option β) (used : β → Prop) : Prop where
  inj : ∀ {k l b}, owner k = some b → owner l = some b → k = l
  used_iff : ∀ b, used b ↔ ∃ k, owner k = some b

namespace Owns

variable {owner : κ → Option β} {used used' : β → Prop} {k : κ} {b : β}

theorem used_of_some (h : Owns owner used) (hk : owner k = some b) : used b :=
  (h.used_iff b).mpr ⟨k, hk⟩

theorem ne_of_not_used (h : Owns owner used) (hb : ¬ used b) (k : κ) : owner k ≠ some b :=
  fun hk => hb (h.used_of_some hk)

theorem congr (h : Owns owner used) (hused : ∀ c, used' c ↔ used c) : Owns owner used' :=
  ⟨h.inj, fun c => (hused c).trans (h.used_iff c)⟩

theorem card_eq [DecidableEq β] (h : Owns owner used) {slots : Finset κ} {resources : Finset β}
    (hslots : ∀ k, k ∈ slots ↔ owner k ≠ none) (hresources : ∀ b, b ∈ resources ↔ used b) :
    resources.card = slots.card := by
  have himage : slots.image owner = resources.image some := by
    ext b
    cases b with
    | none => simp [hslots]
    | some b => simp [hslots, hresources, h.used_iff]; grind
  rw [← Finset.card_image_of_injective resources (Option.some_injective β), ← himage,
    Finset.card_image_of_injOn]
  intro k hk l _ heq
  obtain ⟨b, hb⟩ := Option.ne_none_iff_exists'.mp ((hslots k).mp hk)
  exact h.inj hb (heq ▸ hb)

variable [DecidableEq κ]

theorem assign (h : Owns owner used) (hk : owner k = none) (hb : ¬ used b)
    (hused : ∀ c, used' c ↔ used c ∨ c = b) : Owns (update owner k (some b)) used' where
  inj {l m c} hl hm := by
    by_cases hlk : l = k <;> by_cases hmk : m = k
    · rw [hlk, hmk]
    · rw [hlk, update_self, Option.some_inj] at hl
      rw [update_of_ne hmk, ← hl] at hm
      exact absurd hm (h.ne_of_not_used hb m)
    · rw [hmk, update_self, Option.some_inj] at hm
      rw [update_of_ne hlk, ← hm] at hl
      exact absurd hl (h.ne_of_not_used hb l)
    · rw [update_of_ne hlk] at hl
      rw [update_of_ne hmk] at hm
      exact h.inj hl hm
  used_iff c := by
    rw [hused, h.used_iff]
    constructor
    · rintro (⟨l, hl⟩ | rfl)
      · have hlk : l ≠ k := by
          rintro rfl
          cases hk.symm.trans hl
        exact ⟨l, (update_of_ne hlk _ _).trans hl⟩
      · exact ⟨k, update_self _ _ _⟩
    · rintro ⟨l, hl⟩
      by_cases hlk : l = k
      · rw [hlk, update_self, Option.some_inj] at hl
        exact Or.inr hl.symm
      · rw [update_of_ne hlk] at hl
        exact Or.inl ⟨l, hl⟩

theorem release (h : Owns owner used) (hk : owner k = some b)
    (hused : ∀ c, used' c ↔ used c ∧ c ≠ b) : Owns (update owner k none) used' where
  inj {l m c} hl hm := by
    have hlk : l ≠ k := by
      rintro rfl
      cases (update_self _ _ _).symm.trans hl
    have hmk : m ≠ k := by
      rintro rfl
      cases (update_self _ _ _).symm.trans hm
    rw [update_of_ne hlk] at hl
    rw [update_of_ne hmk] at hm
    exact h.inj hl hm
  used_iff c := by
    rw [hused, h.used_iff]
    constructor
    · rintro ⟨⟨l, hl⟩, hne⟩
      have hlk : l ≠ k := by
        rintro rfl
        exact hne (Option.some_inj.mp (hl.symm.trans hk))
      exact ⟨l, (update_of_ne hlk _ _).trans hl⟩
    · rintro ⟨l, hl⟩
      by_cases hlk : l = k
      · rw [hlk, update_self] at hl
        cases hl
      · rw [update_of_ne hlk] at hl
        refine ⟨⟨l, hl⟩, ?_⟩
        rintro rfl
        exact hlk (h.inj hl hk)

end Owns

end MCertikos.Math
