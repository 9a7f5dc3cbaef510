/-
# Tables of slots as finite maps

A table is a number of slots, each of which is free or binds a key to a value.
-/

import Mathlib.Algebra.Ring.Nat
import Mathlib.Data.List.Basic
import Mathlib.Data.Nat.Notation
import Mathlib.Logic.Function.Basic
import Mathlib.Tactic.Common

namespace MCertikos.Math

open Function

universe u v

@[ext] structure SlotTable (κ : Type u) (ν : Type v) where
  length : ℕ
  slot : ℕ → Option (κ × ν)

namespace SlotTable

variable {κ : Type u} {ν : Type v} {t : SlotTable κ ν} {i : ℕ} {k : κ} {val : ν}

def Unique (t : SlotTable κ ν) : Prop :=
  ∀ i < t.length, ∀ j < t.length, ∀ x y, t.slot i = some x → t.slot j = some y → x.1 = y.1 → i = j

def firstFree (t : SlotTable κ ν) : ℕ :=
  ((List.range t.length).find? fun i => (t.slot i).isNone).getD t.length

def store (t : SlotTable κ ν) (i : ℕ) (x : Option (κ × ν)) : SlotTable κ ν :=
  ⟨max t.length (i + 1), update t.slot i x⟩

theorem firstFree_le (t : SlotTable κ ν) : t.firstFree ≤ t.length := by
  unfold firstFree
  cases hfind : (List.range t.length).find? fun i => (t.slot i).isNone with
  | none => exact Nat.le_refl _
  | some i => exact Nat.le_of_lt (List.mem_range.mp (List.mem_of_find?_eq_some hfind))

theorem slot_firstFree (hlt : t.firstFree < t.length) : t.slot t.firstFree = none := by
  unfold firstFree at *
  cases hfind : (List.range t.length).find? fun i => (t.slot i).isNone with
  | none =>
    rw [hfind] at hlt
    exact absurd hlt (Nat.lt_irrefl _)
  | some i =>
    have hfree := List.find?_some hfind
    exact Option.isNone_iff_eq_none.mp hfree

theorem firstFree_eq_length (h : ∀ i < t.length, t.slot i ≠ none) : t.firstFree = t.length := by
  by_contra hne
  have hlt := Nat.lt_of_le_of_ne t.firstFree_le hne
  exact h _ hlt (slot_firstFree hlt)

theorem firstFree_lt (hi : i < t.length) (hfree : t.slot i = none) : t.firstFree < t.length := by
  unfold firstFree
  cases hfind : (List.range t.length).find? fun i => (t.slot i).isNone with
  | none =>
    have hused := List.find?_eq_none.mp hfind i (List.mem_range.mpr hi)
    exact absurd (Option.isNone_iff_eq_none.mpr hfree) hused
  | some j => exact List.mem_range.mp (List.mem_of_find?_eq_some hfind)

theorem slot_store (t : SlotTable κ ν) (i j : ℕ) (x : Option (κ × ν)) :
    (t.store i x).slot j = if j = i then x else t.slot j := update_apply ..

theorem lt_length_store {j : ℕ} (hi : i ≤ t.length) (x : Option (κ × ν)) :
    j < (t.store i x).length ↔ j < t.length ∨ j = i := by
  simp only [store]
  omega

theorem Unique.erase (h : t.Unique) (hi : i < t.length) : (t.store i none).Unique := by
  intro a ha b hb x y hx hy hxy
  rw [slot_store] at hx hy
  rw [lt_length_store (Nat.le_of_lt hi)] at ha hb
  split at hx
  · cases hx
  split at hy
  · cases hy
  exact h a (ha.resolve_right ‹_›) b (hb.resolve_right ‹_›) x y hx hy hxy

variable [DecidableEq κ]

def index (t : SlotTable κ ν) (k : κ) : Option ℕ :=
  (List.range t.length).find? fun i => (t.slot i).any fun x => x.1 = k

/-- **The map a table stands for.** -/
def lookup (t : SlotTable κ ν) (k : κ) : Option ν :=
  (t.index k).bind fun i => (t.slot i).map Prod.snd

theorem any_key_iff :
    ((t.slot i).any fun x => x.1 = k) = true ↔ ∃ val, t.slot i = some (k, val) := by
  cases t.slot i with
  | none => simp
  | some x =>
    obtain ⟨k', val⟩ := x
    simp only [Option.any_some, decide_eq_true_eq, Option.some.injEq, Prod.mk.injEq]
    constructor
    · rintro rfl
      exact ⟨val, rfl, rfl⟩
    · rintro ⟨_, rfl, -⟩
      rfl

theorem index_eq_some (h : t.index k = some i) :
    i < t.length ∧ ∃ val, t.slot i = some (k, val) := by
  have hkey := List.find?_some h
  exact ⟨List.mem_range.mp (List.mem_of_find?_eq_some h), any_key_iff.mp hkey⟩

theorem index_eq_none : t.index k = none ↔ ∀ i < t.length, ∀ val, t.slot i ≠ some (k, val) := by
  unfold index
  simp only [List.find?_eq_none, List.mem_range, any_key_iff, not_exists, ne_eq]

theorem lookup_eq_none : t.lookup k = none ↔ ∀ i < t.length, ∀ val, t.slot i ≠ some (k, val) := by
  rw [← index_eq_none, lookup]
  cases hindex : t.index k with
  | none => simp
  | some i =>
    obtain ⟨-, val, hslot⟩ := index_eq_some hindex
    simp [hslot]

theorem lookup_eq_some (h : t.Unique) :
    t.lookup k = some val ↔ ∃ i < t.length, t.slot i = some (k, val) := by
  constructor
  · intro hlookup
    obtain ⟨i, hindex, hslot⟩ := Option.bind_eq_some_iff.mp hlookup
    obtain ⟨hi, val', hslot'⟩ := index_eq_some hindex
    rw [hslot', Option.map_some] at hslot
    cases hslot
    exact ⟨i, hi, hslot'⟩
  · rintro ⟨i, hi, hslot⟩
    cases hindex : t.index k with
    | none => exact absurd hslot (index_eq_none.mp hindex i hi val)
    | some j =>
      obtain ⟨hj, val', hslot'⟩ := index_eq_some hindex
      obtain rfl := h i hi j hj _ _ hslot hslot' rfl
      rw [lookup, hindex, Option.bind_some, hslot, Option.map_some]

theorem Unique.store (h : t.Unique) (hk : t.lookup k = none) (hi : i ≤ t.length) :
    (t.store i (some (k, val))).Unique := by
  have hnew := lookup_eq_none.mp hk
  intro a ha b hb x y hx hy hxy
  rw [slot_store] at hx hy
  rw [lt_length_store hi] at ha hb
  by_cases hai : a = i
  · by_cases hbi : b = i
    · rw [hai, hbi]
    · rw [if_pos hai] at hx
      rw [if_neg hbi] at hy
      cases hx
      exact absurd hy (by rw [← Prod.eta y, ← hxy]; exact hnew b (hb.resolve_right hbi) y.2)
  · rw [if_neg hai] at hx
    by_cases hbi : b = i
    · rw [if_pos hbi] at hy
      cases hy
      exact absurd hx (by rw [← Prod.eta x, hxy]; exact hnew a (ha.resolve_right hai) x.2)
    · rw [if_neg hbi] at hy
      exact h a (ha.resolve_right hai) b (hb.resolve_right hbi) x y hx hy hxy

/-- What is stored in a slot without a binding of another key leaves the other keys alone. -/
theorem lookup_store_of_ne {entry : Option (κ × ν)} {k' : κ} (h : t.Unique)
    (hstore : (t.store i entry).Unique) (hi : i ≤ t.length)
    (hnew : ∀ v, entry ≠ some (k', v)) (hold : i < t.length → ∀ v, t.slot i ≠ some (k', v)) :
    (t.store i entry).lookup k' = t.lookup k' := by
  apply Option.ext
  intro v
  rw [lookup_eq_some hstore, lookup_eq_some h]
  constructor
  · rintro ⟨j, hj, hslot⟩
    rw [slot_store] at hslot
    rw [lt_length_store hi] at hj
    split at hslot
    · exact absurd hslot (hnew v)
    · exact ⟨j, hj.resolve_right ‹_›, hslot⟩
  · rintro ⟨j, hj, hslot⟩
    have hne : j ≠ i := by
      rintro rfl
      exact hold hj v hslot
    exact ⟨j, (lt_length_store hi _).mpr (.inl hj), by rw [slot_store, if_neg hne, hslot]⟩

/-- **A new binding** in a free slot, or at the end, extends the map at its key. -/
theorem lookup_store (h : t.Unique) (hk : t.lookup k = none) (hi : i ≤ t.length)
    (hfree : i < t.length → t.slot i = none) :
    (t.store i (some (k, val))).lookup = update t.lookup k (some val) := by
  have hstore : (t.store i (some (k, val))).Unique := h.store hk hi
  funext k'
  by_cases hkey : k' = k
  · subst hkey
    rw [update_self, lookup_eq_some hstore]
    exact ⟨i, (lt_length_store hi _).mpr (.inr rfl), by rw [slot_store, if_pos rfl]⟩
  · rw [update_of_ne hkey]
    refine lookup_store_of_ne h hstore hi ?_ fun hlt v => ?_
    · rintro v ⟨⟩
      exact hkey rfl
    · rw [hfree hlt]
      exact nofun

/-- **Freeing the slot of a key** takes the key out of the map. -/
theorem lookup_erase (h : t.Unique) (hindex : t.index k = some i) :
    (t.store i none).lookup = update t.lookup k none := by
  obtain ⟨hi, val, hbound⟩ := index_eq_some hindex
  funext k'
  by_cases hkey : k' = k
  · subst hkey
    rw [update_self, lookup_eq_none]
    intro j hj v hslot
    rw [slot_store] at hslot
    rw [lt_length_store (Nat.le_of_lt hi)] at hj
    split at hslot
    · cases hslot
    · next hne => exact absurd (h j (hj.resolve_right hne) i hi _ _ hslot hbound rfl) hne
  · rw [update_of_ne hkey]
    refine lookup_store_of_ne h (h.erase hi) (Nat.le_of_lt hi) (fun _ => nofun) fun _ v heq => ?_
    rw [hbound] at heq
    cases heq
    exact hkey rfl

end SlotTable

end MCertikos.Math
