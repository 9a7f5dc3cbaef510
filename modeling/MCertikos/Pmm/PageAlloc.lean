/-
# Physical pages

The allocation table of `MATIntro`, its initialisation from the memory map by `pmem_init`, and the
page allocator of `MATOp`.
-/

import Mathlib.Data.List.Basic
import Mathlib.Data.Nat.Notation
import Mathlib.Tactic.Common

namespace MCertikos.Pmm

def pagesize : ℕ := 4096

def vmUserloPi : ℕ := 262144

def vmUserhiPi : ℕ := 983040

structure MemRange where
  start : BitVec 32
  len : BitVec 32
  usable : BitVec 32
  deriving DecidableEq

structure AllocTable where
  numPages : ℕ
  perm : ℕ → ℕ
  allocated : ℕ → ℕ
  lastPallocIndex : ℕ

/-! ## `pmem_init` -/

def pageCount (mm : List MemRange) : ℕ :=
  mm.foldl (fun nps row =>
    let maxs := (row.start + row.len).toNat / pagesize + 1
    if nps < maxs then maxs else nps) 0

def MemRange.Covers (row : MemRange) (i : ℕ) : Prop :=
  row.start ≤ BitVec.ofNat 32 (i * pagesize) ∧
    BitVec.ofNat 32 ((i + 1) * pagesize) ≤ row.len + row.start

instance (row : MemRange) (i : ℕ) : Decidable (row.Covers i) := by
  unfold MemRange.Covers
  infer_instance

def pagePerm (mm : List MemRange) (i : ℕ) : ℕ :=
  if i < vmUserloPi ∨ vmUserhiPi ≤ i then 1
  else
    match mm.find? fun row => row.Covers i with
    | some row => if row.usable = 1 then 2 else 0
    | none => 0

namespace AllocTable

/-- Every turn of the second loop of `pmem_init` writes one page: its permission, and the
flag that marks it unallocated. -/
def pmemInit (t : AllocTable) (mm : List MemRange) : AllocTable :=
  { t with
    numPages := pageCount mm
    perm := fun i => if i < pageCount mm then pagePerm mm i else t.perm i
    allocated := fun i => if i < pageCount mm then 0 else t.allocated i }

/-! ## `MATIntro` -/

def atIsNorm (t : AllocTable) (i : ℕ) : Bool := t.perm i != 0 && t.perm i != 1

def atIsAllocated (t : AllocTable) (i : ℕ) : Bool := t.allocated i != 0

def atSetAllocated (t : AllocTable) (i allocated : ℕ) : AllocTable :=
  { t with allocated := Function.update t.allocated i allocated }

/-! ## `MATOp` -/

def Free (t : AllocTable) (i : ℕ) : Prop := t.atIsNorm i = true ∧ t.atIsAllocated i = false

instance (t : AllocTable) (i : ℕ) : Decidable (t.Free i) := by
  unfold Free
  infer_instance

def pallocScan (t : AllocTable) : ℕ :=
  ((List.range' (t.lastPallocIndex + 1) (t.numPages - (t.lastPallocIndex + 1))).find?
    fun i => t.Free i).getD t.numPages

def palloc (t : AllocTable) : ℕ × AllocTable :=
  let free := t.pallocScan
  if free = t.numPages then (0, { t with lastPallocIndex := 0 % t.numPages })
  else (free, { t.atSetAllocated free 1 with lastPallocIndex := free % t.numPages })

def pfree (t : AllocTable) (i : ℕ) : AllocTable := t.atSetAllocated i 0

def HasFree (t : AllocTable) : Prop := ∃ i, t.lastPallocIndex < i ∧ i < t.numPages ∧ t.Free i

theorem pallocScan_cases (t : AllocTable) :
    (t.lastPallocIndex < t.pallocScan ∧ t.pallocScan < t.numPages ∧ t.Free t.pallocScan) ∨
      t.pallocScan = t.numPages ∧ ¬ t.HasFree := by
  unfold pallocScan
  cases hfind : (List.range' (t.lastPallocIndex + 1)
      (t.numPages - (t.lastPallocIndex + 1))).find? fun i => t.Free i with
  | some i =>
    have hfree : t.Free i := by simpa using List.find?_some hfind
    have hmem := List.mem_range'_1.mp (List.mem_of_find?_eq_some hfind)
    exact Or.inl ⟨hmem.1, by simp only [Option.getD_some]; omega, hfree⟩
  | none =>
    refine Or.inr ⟨rfl, ?_⟩
    rintro ⟨i, hlast, hlt, hfree⟩
    have hmem : i ∈ List.range' (t.lastPallocIndex + 1)
        (t.numPages - (t.lastPallocIndex + 1)) := List.mem_range'_1.mpr ⟨hlast, by omega⟩
    exact absurd (decide_eq_true hfree) (List.find?_eq_none.mp hfind i hmem)

/-- **What `palloc` does.** It marks a free page behind the last one, or there is none. -/
theorem palloc_cases (t : AllocTable) :
    (∃ i, t.HasFree ∧ t.palloc.1 = i ∧ 0 < i ∧ i < t.numPages ∧ t.Free i ∧
      t.palloc.2.allocated = Function.update t.allocated i 1) ∨
      ¬ t.HasFree ∧ t.palloc.1 = 0 ∧ t.palloc.2.allocated = t.allocated := by
  obtain ⟨hlast, hlt, hfree⟩ | ⟨hscan, hnone⟩ := t.pallocScan_cases
  · rw [palloc, if_neg (Nat.ne_of_lt hlt)]
    exact Or.inl ⟨t.pallocScan, ⟨_, hlast, hlt, hfree⟩, rfl, by omega, hlt, hfree, rfl⟩
  · rw [palloc, if_pos hscan]
    exact Or.inr ⟨hnone, rfl, rfl⟩

end AllocTable

end MCertikos.Pmm
