/-
# Null-terminated chains

A chain is what a loop `for (p = first; p != NULL; p = p->next)` visits.
-/

import Mathlib.Data.Fintype.Card
import Mathlib.Logic.Function.Basic
import Mathlib.Tactic.Common

namespace MCertikos.Math

open Function

universe u

variable {α : Type u}

def Spells (next : α → Option α) : Option α → List α → Prop
  | p, [] => p = none
  | p, x :: xs => p = some x ∧ Spells next (next x) xs

namespace Spells

variable {next : α → Option α} {p : Option α} {xs ys : List α}

theorem congr {next' : α → Option α} (h : Spells next p xs)
    (hnext : ∀ x ∈ xs, next' x = next x) : Spells next' p xs := by
  induction xs generalizing p with
  | nil => exact h
  | cons x xs ih =>
    obtain ⟨hp, hrest⟩ := h
    refine ⟨hp, ?_⟩
    rw [hnext x List.mem_cons_self]
    exact ih hrest fun y hy => hnext y (List.mem_cons_of_mem x hy)

theorem unique (hx : Spells next p xs) (hy : Spells next p ys) : xs = ys := by
  induction xs generalizing p ys with
  | nil =>
    cases ys with
    | nil => rfl
    | cons y ys => exact absurd (hx.symm.trans hy.1) (by simp)
  | cons x xs ih =>
    cases ys with
    | nil => exact absurd (hx.1.symm.trans hy) (by simp)
    | cons y ys =>
      obtain rfl : x = y := Option.some.inj (hx.1.symm.trans hy.1)
      rw [ih hx.2 hy.2]

theorem of_append {x : α} (h : Spells next p (ys ++ x :: xs)) : Spells next (next x) xs := by
  induction ys generalizing p with
  | nil => exact h.2
  | cons y ys ih => exact ih h.2

theorem nodup (h : Spells next p xs) : xs.Nodup := by
  induction xs generalizing p with
  | nil => exact List.nodup_nil
  | cons x xs ih =>
    refine List.nodup_cons.mpr ⟨?_, ih h.2⟩
    intro hmem
    obtain ⟨before, after, rfl⟩ := List.append_of_mem hmem
    have hlength := congrArg List.length (h.2.unique (of_append h.2))
    simp at hlength
    omega

theorem insertHead [DecidableEq α] {x : α} (h : Spells next p xs) (hx : x ∉ xs) :
    Spells (update next x p) (some x) (x :: xs) := by
  refine ⟨rfl, ?_⟩
  rw [update_self]
  refine h.congr fun y hy => update_of_ne ?_ _ _
  rintro rfl
  exact hx hy

def insertAfter [DecidableEq α] (next : α → Option α) (x y : α) : α → Option α :=
  update (update next y (next x)) x (some y)

theorem insert [DecidableEq α] {x y : α} (h : Spells next p (ys ++ x :: xs))
    (hy : y ∉ ys ++ x :: xs) : Spells (insertAfter next x y) p (ys ++ x :: y :: xs) := by
  have hne : y ≠ x := fun heq => hy (by simp [heq])
  induction ys generalizing p with
  | nil =>
    refine ⟨h.1, ?_⟩
    have hx : insertAfter next x y x = some y := update_self ..
    have hnext : insertAfter next x y y = next x := by
      rw [insertAfter, update_of_ne hne, update_self]
    rw [hx]
    refine ⟨rfl, ?_⟩
    rw [hnext]
    refine h.2.congr fun z hz => ?_
    have hzx : z ≠ x := fun heq => (List.nodup_cons.mp h.nodup).1 (heq ▸ hz)
    have hzy : z ≠ y := fun heq => hy (List.mem_cons_of_mem x (heq ▸ hz))
    rw [insertAfter, update_of_ne hzx, update_of_ne hzy]
  | cons z ys ih =>
    have hzx : z ≠ x := by
      have hnodup := h.nodup
      simp only [List.cons_append, List.nodup_cons, List.mem_append, List.mem_cons,
        not_or] at hnodup
      exact hnodup.1.2.1
    have hzy : z ≠ y := fun heq => hy (heq ▸ List.mem_cons_self)
    refine ⟨h.1, ?_⟩
    have hz : insertAfter next x y z = next z := by
      rw [insertAfter, update_of_ne hzx, update_of_ne hzy]
    rw [hz]
    exact ih h.2 fun hmem => hy (List.mem_cons_of_mem z hmem)

theorem concat [DecidableEq α] {x y : α} (h : Spells next p (xs ++ [x]))
    (hy : y ∉ xs ++ [x]) (hnone : next y = none) :
    Spells (update next x (some y)) p (xs ++ [x] ++ [y]) := by
  have hlast : next x = none := of_append h
  have hinsert := h.insert hy
  rwa [insertAfter, hlast, ← hnone, update_eq_self, List.append_cons] at hinsert

theorem length_le [Fintype α] (h : Spells next p xs) : xs.length ≤ Fintype.card α :=
  h.nodup.length_le_card

def walk (next : α → Option α) : ℕ → Option α → List α
  | _, none => []
  | 0, some _ => []
  | fuel + 1, some x => x :: walk next fuel (next x)

theorem walk_eq (h : Spells next p xs) {fuel : ℕ} (hfuel : xs.length ≤ fuel) :
    walk next fuel p = xs := by
  induction xs generalizing p fuel with
  | nil =>
    obtain rfl : p = none := h
    cases fuel <;> rfl
  | cons x xs ih =>
    obtain ⟨rfl, hrest⟩ := h
    cases fuel with
    | zero => simp at hfuel
    | succ fuel => rw [walk, ih hrest (by simpa using hfuel)]

end Spells

end MCertikos.Math
