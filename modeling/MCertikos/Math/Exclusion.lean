/-
# Exclusive locks

A lock is a flag in the shared state.
-/

import Mathlib.Algebra.BigOperators.Group.Finset.Piecewise
import Mathlib.Logic.Function.Basic

namespace MCertikos.Math

/-- The flags that are set are those of the locks somebody holds, and each has one holder. -/
structure Exclusive {ι : Type*} (flag : ι → Prop) (holds : ℕ → ι → Prop) : Prop where
  flag_iff : ∀ i, flag i ↔ ∃ p, holds p i
  unique : ∀ {p q i}, holds p i → holds q i → p = q

namespace Exclusive

variable {ι : Type*} {flag flag' : ι → Prop} {holds holds' : ℕ → ι → Prop} {p : ℕ} {i : ι}

theorem flag_of_holds (h : Exclusive flag holds) (hp : holds p i) : flag i :=
  (h.flag_iff i).mpr ⟨p, hp⟩

theorem congr (h : Exclusive flag holds) (hflag : ∀ i, flag' i ↔ flag i)
    (hholds : ∀ p i, holds' p i ↔ holds p i) : Exclusive flag' holds' where
  flag_iff i := by simp only [hflag, hholds, h.flag_iff]
  unique hp hq := h.unique ((hholds _ _).mp hp) ((hholds _ _).mp hq)

theorem acquire (h : Exclusive flag holds) (hfree : ¬ flag i)
    (hflag : ∀ j, flag' j ↔ flag j ∨ j = i)
    (hholds : ∀ q j, holds' q j ↔ holds q j ∨ q = p ∧ j = i) : Exclusive flag' holds' where
  flag_iff j := by
    rw [hflag, h.flag_iff]
    constructor
    · rintro (⟨q, hq⟩ | rfl)
      · exact ⟨q, (hholds q j).mpr (.inl hq)⟩
      · exact ⟨p, (hholds p j).mpr (.inr ⟨rfl, rfl⟩)⟩
    · rintro ⟨q, hq⟩
      rcases (hholds q j).mp hq with hq | ⟨-, rfl⟩
      · exact .inl ⟨q, hq⟩
      · exact .inr rfl
  unique {q q' j} hq hq' := by
    rcases (hholds q j).mp hq with hq | ⟨rfl, rfl⟩ <;>
      rcases (hholds q' j).mp hq' with hq' | ⟨rfl, hj⟩
    · exact h.unique hq hq'
    · exact absurd (h.flag_of_holds (hj ▸ hq)) hfree
    · exact absurd (h.flag_of_holds hq') hfree
    · rfl

theorem release (h : Exclusive flag holds) (hp : holds p i) (hflag : ∀ j, flag' j ↔ flag j ∧ j ≠ i)
    (hholds : ∀ q j, holds' q j ↔ holds q j ∧ ¬ (q = p ∧ j = i)) : Exclusive flag' holds' where
  flag_iff j := by
    rw [hflag, h.flag_iff]
    constructor
    · rintro ⟨⟨q, hq⟩, hj⟩
      exact ⟨q, (hholds q j).mpr ⟨hq, fun hqj => hj hqj.2⟩⟩
    · rintro ⟨q, hq⟩
      obtain ⟨hq, hne⟩ := (hholds q j).mp hq
      refine ⟨⟨q, hq⟩, ?_⟩
      rintro rfl
      exact hne ⟨h.unique hq hp, rfl⟩
  unique hq hq' := h.unique ((hholds _ _).mp hq).1 ((hholds _ _).mp hq').1

end Exclusive

/-! ## Shares -/

theorem sum_update_add (shares : ℕ → ℕ) {threads : Finset ℕ} {p : ℕ} (hp : p ∈ threads) (n : ℕ) :
    ∑ q ∈ threads, Function.update shares p n q + shares p = ∑ q ∈ threads, shares q + n := by
  rw [Finset.sum_update_of_mem hp, Finset.sdiff_singleton_eq_erase,
    ← Finset.add_sum_erase threads shares hp]
  omega

def Covers (total : ℤ) (shares : ℕ → ℕ) : Prop :=
  ∀ threads : Finset ℕ, ((∑ p ∈ threads, shares p : ℕ) : ℤ) ≤ total

namespace Covers

variable {total : ℤ} {shares : ℕ → ℕ} {p : ℕ}

theorem le (h : Covers total shares) (p : ℕ) : (shares p : ℤ) ≤ total := by
  simpa using h {p}

theorem gain (h : Covers total shares) :
    Covers (total + 1) (Function.update shares p (shares p + 1)) := by
  intro threads
  have hbefore := h threads
  by_cases hp : p ∈ threads
  · have hafter := sum_update_add shares hp (shares p + 1)
    omega
  · rw [Finset.sum_update_of_notMem hp]
    omega

theorem lose (h : Covers total shares) (hshare : 1 ≤ shares p) :
    Covers (total - 1) (Function.update shares p (shares p - 1)) := by
  intro threads
  by_cases hp : p ∈ threads
  · have hbefore := h threads
    have hafter := sum_update_add shares hp (shares p - 1)
    omega
  · -- The share of `p` itself is not among those of `threads`, so they leave one over.
    have hbefore := h (insert p threads)
    rw [Finset.sum_insert hp] at hbefore
    rw [Finset.sum_update_of_notMem hp]
    omega

end Covers

/-- The counter says how many shares the threads have together; all but some finite set of
them have none. -/
def Counts (total : ℤ) (shares : ℕ → ℕ) : Prop :=
  ∃ threads : Finset ℕ, (∀ p ∉ threads, shares p = 0) ∧
    ((∑ p ∈ threads, shares p : ℕ) : ℤ) = total

namespace Counts

variable {total : ℤ} {shares : ℕ → ℕ} {p : ℕ}

theorem zero : Counts 0 fun _ => 0 := ⟨∅, fun _ _ => rfl, rfl⟩

theorem exists_mem (h : Counts total shares) (p : ℕ) :
    ∃ threads : Finset ℕ, p ∈ threads ∧ (∀ q ∉ threads, shares q = 0) ∧
      ((∑ q ∈ threads, shares q : ℕ) : ℤ) = total := by
  obtain ⟨threads, hnone, hsum⟩ := h
  refine ⟨insert p threads, Finset.mem_insert_self p threads, fun q hq => ?_, ?_⟩
  · exact hnone q fun hmem => hq (Finset.mem_insert_of_mem hmem)
  · rw [Finset.sum_insert_of_eq_zero_if_notMem (hnone p), hsum]

theorem update (h : Counts total shares) (n : ℕ) :
    Counts (total + n - shares p) (Function.update shares p n) := by
  obtain ⟨threads, hmem, hnone, hsum⟩ := h.exists_mem p
  refine ⟨threads, fun q hq => ?_, ?_⟩
  · have hne : q ≠ p := fun heq => hq (heq ▸ hmem)
    rw [Function.update_of_ne hne]
    exact hnone q hq
  · have hafter := sum_update_add shares hmem n
    omega

theorem gain (h : Counts total shares) :
    Counts (total + 1) (Function.update shares p (shares p + 1)) := by
  convert h.update (shares p + 1) using 1
  omega

theorem lose (h : Counts total shares) (hshare : 1 ≤ shares p) :
    Counts (total - 1) (Function.update shares p (shares p - 1)) := by
  convert h.update (shares p - 1) using 1
  omega

end Counts

end MCertikos.Math
