/-
# Circular lists

A doubly linked list that runs in a circle through a head, as in `for (b = head.next; b != head; b
= b->next)`.
-/

import Mathlib.Algebra.Ring.Nat
import MCertikos.Math.LinkedQueue

namespace MCertikos.Math

open Function

universe u

structure RingLinks (ν : Type u) where
  next : ν → ν
  prev : ν → ν

namespace RingLinks

variable {ν : Type u}

/-- The links lead from `a` along the list to `b`, and back. -/
def Linked (L : RingLinks ν) : ν → List ν → ν → Prop
  | a, [], b => L.next a = b ∧ L.prev b = a
  | a, x :: xs, b => L.next a = x ∧ L.prev x = a ∧ Linked L x xs b

/-- The links form one circle through the head and the list. -/
structure Circle (L : RingLinks ν) (head : ν) (xs : List ν) : Prop where
  nodup : (head :: xs).Nodup
  linked : L.Linked head xs head

variable {L K : RingLinks ν} {a b x head : ν} {xs ys : List ν}

/-- A linked list can be cut at each of its nodes. -/
theorem linked_append : L.Linked a (xs ++ x :: ys) b ↔ L.Linked a xs x ∧ L.Linked x ys b := by
  induction xs generalizing a with
  | nil => simp [Linked, and_assoc]
  | cons y xs ih => simp [Linked, ih, and_assoc]

theorem Linked.congr (h : L.Linked a xs b) (hnext : ∀ y ∈ a :: xs, K.next y = L.next y)
    (hprev : ∀ y ∈ xs ++ [b], K.prev y = L.prev y) : K.Linked a xs b := by
  induction xs generalizing a with
  | nil => exact ⟨(hnext a (by simp)).trans h.1, (hprev b (by simp)).trans h.2⟩
  | cons y xs ih =>
    obtain ⟨ha, hy, hrest⟩ := h
    refine ⟨(hnext a (by simp)).trans ha, (hprev y (by simp)).trans hy, ih hrest ?_ ?_⟩
    · exact fun z hz => hnext z (List.mem_cons_of_mem a hz)
    · exact fun z hz => hprev z (List.mem_cons_of_mem y hz)

theorem Linked.next_eq (h : L.Linked a xs b) : L.next a = xs.headD b := by
  cases xs with
  | nil => exact h.1
  | cons y xs => exact h.1

theorem Linked.prev_eq (h : L.Linked a xs b) : L.prev b = xs.getLastD a := by
  induction xs generalizing a with
  | nil => exact h.2
  | cons y xs ih =>
    rw [ih h.2.2]
    cases xs <;> rfl

theorem circle_nil (hnext : L.next head = head) (hprev : L.prev head = head) :
    L.Circle head [] := ⟨List.nodup_singleton head, hnext, hprev⟩

theorem getLastD_mem (a : ν) (xs : List ν) : xs.getLastD a ∈ a :: xs := by
  induction xs generalizing a with
  | nil => exact List.mem_cons_self
  | cons x xs ih =>
    rw [List.getLastD_cons]
    exact List.mem_cons_of_mem a (ih x)

theorem headD_mem (b : ν) (ys : List ν) : ys.headD b ∈ ys ++ [b] := by
  cases ys with
  | nil => exact List.mem_cons_self
  | cons y ys => exact List.mem_cons_self

theorem Linked.skip (hleft : L.Linked a xs x) (hright : L.Linked x ys b)
    (hxs : (a :: xs).Nodup) (hys : (ys ++ [b]).Nodup)
    (hnext : K.next (xs.getLastD a) = ys.headD b) (hprev : K.prev (ys.headD b) = xs.getLastD a)
    (hnext_left : ∀ y ∈ a :: xs, y ≠ xs.getLastD a → K.next y = L.next y)
    (hprev_left : ∀ y ∈ xs, K.prev y = L.prev y) (hnext_right : ∀ y ∈ ys, K.next y = L.next y)
    (hprev_right : ∀ y ∈ ys ++ [b], y ≠ ys.headD b → K.prev y = L.prev y) :
    K.Linked a (xs ++ ys) b := by
  induction xs generalizing a with
  | nil =>
    cases ys with
    | nil => exact ⟨hnext, hprev⟩
    | cons y ys =>
      refine ⟨hnext, hprev, hright.2.2.congr hnext_right fun z hz => ?_⟩
      apply hprev_right z (List.mem_cons_of_mem y hz)
      rintro rfl
      exact (List.nodup_cons.mp hys).1 hz
  | cons z xs ih =>
    obtain ⟨ha, hz, hrest⟩ := hleft
    obtain ⟨hnotMem, hnodup⟩ := List.nodup_cons.mp hxs
    rw [List.getLastD_cons] at hnext hprev hnext_left
    refine ⟨?_, (hprev_left z List.mem_cons_self).trans hz, ih hrest hnodup hnext hprev ?_ ?_⟩
    · refine (hnext_left a List.mem_cons_self ?_).trans ha
      intro heq
      exact hnotMem (heq ▸ getLastD_mem z xs)
    · exact fun y hy => hnext_left y (List.mem_cons_of_mem a hy)
    · exact fun y hy => hprev_left y (List.mem_cons_of_mem z hy)

/-! ## Changing the links -/

section Change

variable [DecidableEq ν]

def unlink (L : RingLinks ν) (x : ν) : RingLinks ν :=
  let L := { L with prev := update L.prev (L.next x) (L.prev x) }
  { L with next := update L.next (L.prev x) (L.next x) }

def insertFront (L : RingLinks ν) (head x : ν) : RingLinks ν :=
  let L := { L with next := update L.next x (L.next head) }
  let L := { L with prev := update L.prev x head }
  let L := { L with prev := update L.prev (L.next head) x }
  { L with next := update L.next head x }

theorem Circle.insertFront (h : L.Circle head xs) (hx : x ∉ head :: xs) :
    (L.insertFront head x).Circle head (x :: xs) := by
  obtain ⟨hne, hxs⟩ := not_or.mp (fun hor => hx (List.mem_cons.mpr hor))
  obtain ⟨hhead, hnodup⟩ := List.nodup_cons.mp h.nodup
  have hfirst := h.linked.next_eq
  have hfirst_ne : L.next head ≠ x := by
    rw [hfirst]
    cases xs with
    | nil => exact Ne.symm hne
    | cons y xs => exact fun heq => hxs (heq ▸ List.mem_cons_self)
  have hnext_head : (L.insertFront head x).next head = x := by simp [RingLinks.insertFront]
  have hnext_x : (L.insertFront head x).next x = L.next head := by
    simp [RingLinks.insertFront, hne]
  have hnext : ∀ y ∈ xs, (L.insertFront head x).next y = L.next y := by
    intro y hy
    have hyx : y ≠ x := fun heq => hxs (heq ▸ hy)
    have hyh : y ≠ head := fun heq => hhead (heq ▸ hy)
    simp [RingLinks.insertFront, hyx, hyh]
  have hprev_x : (L.insertFront head x).prev x = head := by
    simp [RingLinks.insertFront, Ne.symm hne, Ne.symm hfirst_ne]
  have hprev_first : (L.insertFront head x).prev (L.next head) = x := by
    simp [RingLinks.insertFront, Ne.symm hne]
  have hprev : ∀ y, y ≠ x → y ≠ L.next head → (L.insertFront head x).prev y = L.prev y := by
    intro y hyx hyf
    simp [RingLinks.insertFront, hyx, hyf, Ne.symm hne]
  refine ⟨?_, hnext_head, hprev_x, ?_⟩
  · simp only [List.nodup_cons, List.mem_cons, not_or] at hx ⊢
    exact ⟨⟨Ne.symm hne, hhead⟩, hxs, hnodup⟩
  · cases xs with
    | nil =>
      rw [List.headD_nil] at hfirst
      rw [hfirst] at hnext_x hprev_first
      exact ⟨hnext_x, hprev_first⟩
    | cons y xs =>
      rw [List.headD_cons] at hfirst
      rw [hfirst] at hnext_x hprev_first hprev
      refine ⟨hnext_x, hprev_first, h.linked.2.2.congr hnext fun z hz => ?_⟩
      obtain ⟨hy, -⟩ := List.nodup_cons.mp hnodup
      obtain hz | hz := List.mem_append.mp hz
      · exact hprev z (fun heq => hxs (heq ▸ List.mem_cons_of_mem y hz))
          fun heq => hy (heq ▸ hz)
      · rw [List.mem_singleton.mp hz]
        exact hprev head (Ne.symm hne) fun heq => hhead (heq ▸ List.mem_cons_self)

theorem Circle.unlink (h : L.Circle head (xs ++ x :: ys)) :
    (L.unlink x).Circle head (xs ++ ys) := by
  obtain ⟨hleft, hright⟩ := linked_append.mp h.linked
  have hnodup : ((head :: xs) ++ x :: ys).Nodup := h.nodup
  obtain ⟨hxs, hx, hdisj⟩ := List.nodup_append.mp hnodup
  obtain ⟨hx, hys⟩ := List.nodup_cons.mp hx
  have hhead : head ∉ ys := fun hmem =>
    hdisj head List.mem_cons_self head (List.mem_cons_of_mem x hmem) rfl
  have hxhead : x ≠ head := fun heq =>
    hdisj head List.mem_cons_self x List.mem_cons_self heq.symm
  have hprev := hleft.prev_eq
  have hnext := hright.next_eq
  have hnext_ne : x ≠ ys.headD head := by
    intro heq
    obtain hmem | hmem := List.mem_append.mp (headD_mem head ys)
    · exact hx (heq ▸ hmem)
    · exact hxhead (heq.trans (List.mem_singleton.mp hmem))
  have hnext_eq : (L.unlink x).next =
      update L.next (xs.getLastD head) (ys.headD head) := by
    simp only [RingLinks.unlink, hnext, hprev, update_of_ne hnext_ne]
  have hprev_eq : (L.unlink x).prev =
      update L.prev (ys.headD head) (xs.getLastD head) := by
    simp only [RingLinks.unlink, hnext, hprev]
  refine ⟨?_, hleft.skip hright hxs ?_ ?_ ?_ ?_ ?_ ?_ ?_⟩
  · have hsub : (head :: xs ++ ys).Sublist (head :: xs ++ x :: ys) :=
      List.Sublist.append_left (List.sublist_cons_self x ys) (head :: xs)
    exact hnodup.sublist hsub
  · rw [List.nodup_append]
    refine ⟨hys, List.nodup_singleton head, fun y hy z hz => ?_⟩
    rw [List.mem_singleton.mp hz]
    exact fun heq => hhead (heq ▸ hy)
  · rw [hnext_eq, update_self]
  · rw [hprev_eq, update_self]
  · intro y _ hy
    rw [hnext_eq, update_of_ne hy]
  · intro y hy
    have hne : y ≠ ys.headD head := by
      intro heq
      obtain hmem | hmem := List.mem_append.mp (headD_mem head ys)
      · exact hdisj y (List.mem_cons_of_mem head hy) y
          (List.mem_cons_of_mem x (heq ▸ hmem)) rfl
      · exact (List.nodup_cons.mp hxs).1 (List.mem_singleton.mp hmem ▸ heq ▸ hy)
    rw [hprev_eq, update_of_ne hne]
  · intro y hy
    have hne : y ≠ xs.getLastD head := fun heq =>
      hdisj _ (getLastD_mem head xs) y (List.mem_cons_of_mem x hy) heq.symm
    rw [hnext_eq, update_of_ne hne]
  · intro y _ hy
    rw [hprev_eq, update_of_ne hy]

theorem Circle.moveFront (h : L.Circle head (xs ++ x :: ys)) :
    ((L.unlink x).insertFront head x).Circle head (x :: (xs ++ ys)) := by
  apply h.unlink.insertFront
  have hnodup : ((head :: xs) ++ x :: ys).Nodup := h.nodup
  obtain ⟨-, hx, hdisj⟩ := List.nodup_append.mp hnodup
  intro hmem
  obtain hmem | hmem := List.mem_append.mp (show x ∈ (head :: xs) ++ ys from hmem)
  · exact hdisj x hmem x List.mem_cons_self rfl
  · exact (List.nodup_cons.mp hx).1 hmem

/-! ## Searching -/

variable {fuel : ℕ}

theorem Linked.search_next (h : L.Linked a xs head) (hhead : head ∉ xs) (test : ν → Bool)
    (hfuel : xs.length ≤ fuel) :
    Links.search head L.next test fuel (L.next a) = some (xs.find? test) := by
  induction xs generalizing a fuel with
  | nil =>
    rw [h.1]
    cases fuel <;> simp [Links.search]
  | cons x xs ih =>
    obtain ⟨hx, hxs⟩ := not_or.mp fun hor => hhead (List.mem_cons.mpr hor)
    cases fuel with
    | zero => cases hfuel
    | succ fuel =>
      rw [h.1, Links.search, if_neg (Ne.symm hx), List.find?_cons]
      cases test x with
      | true => rfl
      | false => exact ih h.2.2 hxs (Nat.le_of_succ_le_succ hfuel)

theorem Circle.search_next (h : L.Circle head xs) (test : ν → Bool) (hfuel : xs.length ≤ fuel) :
    Links.search head L.next test fuel (L.next head) = some (xs.find? test) :=
  h.linked.search_next (List.nodup_cons.mp h.nodup).1 test hfuel

end Change

end RingLinks

end MCertikos.Math
