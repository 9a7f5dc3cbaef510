/-
# Free space is exact

In a consistent file system the data blocks that are not free are those of the files.
-/

import MCertikos.FS.InodeCoherence
import Mathlib.Algebra.BigOperators.Group.Finset.Piecewise
import Mathlib.Algebra.BigOperators.Group.Finset.Sigma
import Mathlib.Order.Interval.Finset.Nat

namespace MCertikos.FS

open Math InodeCache

variable {g : Geometry} {s : Fs} {d : Dinode} {cache : Disk}

theorem Shaped.card_refs {count : ℕ} (h : Shaped d cache count) :
    {p ∈ Finset.range (maxfile + 1) | d.refs cache p ≠ none}.card = blocksFor count := by
  have hslots : {p ∈ Finset.range maxfile | d.refs cache p ≠ none} = Finset.range count := by
    ext p
    rw [Finset.mem_filter, Finset.mem_range, Finset.mem_range, Dinode.refs, ne_eq,
      blockNumber_eq_none]
    exact ⟨fun hp => (h.slots p hp.1).mp hp.2,
      fun hp => ⟨hp.trans_le h.count_le, (h.slots p (hp.trans_le h.count_le)).mpr hp⟩⟩
  have hlast : d.refs cache maxfile ≠ none ↔ ndirect < count := by
    rw [Dinode.refs, ne_eq, blockNumber_eq_none, Dinode.blockAt_maxfile]
    exact h.indirect
  have hmem : maxfile ∉ Finset.range count := fun hmem =>
    absurd h.count_le (Nat.not_le.mpr (Finset.mem_range.mp hmem))
  rw [Finset.range_add_one, Finset.filter_insert, hslots, blocksFor]
  by_cases hcount : ndirect < count
  · rw [if_pos (hlast.mpr hcount), if_pos hcount, Finset.card_insert_of_notMem hmem,
      Finset.card_range]
  · rw [if_neg (mt hlast.mp hcount), if_neg hcount, Finset.card_range, Nat.add_zero]

theorem refs_of_maxfile_lt {p : ℕ} (hp : maxfile < p) : d.refs cache p = none := by
  have hdirect : ndirect < maxfile := by decide
  rw [Dinode.refs, Dinode.blockAt, if_neg (by omega), if_neg (by omega), if_neg (by omega),
    blockNumber_zero]

/-- The data blocks are the free ones and those of the files. -/
theorem Consistent.conserved (h : Consistent g s) : (freeBlocks g s).card +
    ∑ i ∈ Finset.range g.ninodes with InodeAllocated g s i,
      blocksFor (fileSlots (s.dinode i).size.toNat) = g.dataEnd - g.dataStart := by
  let files := {i ∈ Finset.range g.ninodes | InodeAllocated g s i}
  let slots := {k ∈ files ×ˢ Finset.range (maxfile + 1) | refs g s k ≠ none}
  let used := {b ∈ Finset.Ico g.dataStart g.dataEnd | g.used s b = true}
  have hfiles : slots.card = ∑ i ∈ files, blocksFor (fileSlots (s.dinode i).size.toNat) := by
    rw [Finset.card_filter, Finset.sum_product]
    refine Finset.sum_congr rfl fun i hi => ?_
    have halloc := (Finset.mem_filter.mp hi).2
    rw [← (h.shaped i halloc).card_refs, Finset.card_filter]
    simp only [refs, if_pos halloc]
  have hused : used.card = slots.card := by
    refine h.accounted.owns.card_eq (fun k => ?_) fun b => ?_
    · simp only [slots, files, Finset.mem_filter, Finset.mem_product, Finset.mem_range]
      refine and_iff_right_of_imp fun hk => ?_
      unfold refs at hk
      split at hk
      · next halloc =>
        exact ⟨⟨halloc.1, halloc⟩, Nat.lt_succ_of_le
          (Nat.le_of_not_lt fun hp => hk (refs_of_maxfile_lt hp))⟩
      · exact absurd rfl hk
    · simp only [used, Finset.mem_filter, Finset.mem_Ico]
      rfl
  have hfree : freeBlocks g s = {b ∈ Finset.Ico g.dataStart g.dataEnd | ¬ g.used s b = true} := by
    ext b
    rw [mem_freeBlocks, Finset.mem_filter, Finset.mem_Ico, Bool.not_eq_true]
    rfl
  rw [← hfiles, ← hused, hfree, Nat.add_comm, Finset.card_filter_add_card_filter_not, Nat.card_Ico]

/-- **Space is conserved.** From every consistent file system and an empty cache, in every run in
which the callers keep to the rules and the blocks of every write are free, the file system stays
consistent, and its free blocks and the blocks of its files are together all data blocks. -/
theorem space_conserved {fs : Fs} {c : InodeCache} (hfs : Consistent g fs) {devsw : ℕ → Devsw}
    {trace : List (InodeOp × InodeOut)}
    (run : (inodeMachine devsw).Run (fun c op => Called g c op ∧ Roomy g c op) (boot fs) trace c) :
    Consistent g c.fs ∧ (freeBlocks g c.fs).card +
      ∑ i ∈ Finset.range g.ninodes with InodeAllocated g c.fs i,
        blocksFor (fileSlots (c.fs.dinode i).size.toNat) = g.dataEnd - g.dataStart := by
  have h : Inv g c := by
    refine run.invariant (inv_boot hfs) ?_
    intro c c' op out h hop hexec
    obtain ⟨⟨out', c''⟩, hok, heq⟩ := Option.map_eq_some_iff.mp hexec
    obtain ⟨rfl, -⟩ := Prod.mk.inj heq
    exact h.code hop.1 hop.2 devsw _ _ (eq_ok_of_toOption hok)
  exact ⟨h.consistent, h.consistent.conserved⟩

/-- Two of the seventeen data blocks go to a file of 600 bytes. -/
theorem space_conserved_of_write :
    ∃ (trace : List (InodeOp × InodeOut)) (c : InodeCache),
      (inodeMachine fun _ => ⟨none, none⟩).Run
        (fun c op => Called smallGeometry c op ∧ Roomy smallGeometry c op) (boot oneFileFs) trace
        c ∧ Consistent smallGeometry c.fs ∧ (freeBlocks smallGeometry c.fs).card = 15 := by
  have heval : ∃ x ∈ ((inodeMachine fun _ => ⟨none, none⟩).guarded
      (fun c op => Called smallGeometry c op ∧ Roomy smallGeometry c op)).runAll
        (boot oneFileFs) openTwice, (freeBlocks smallGeometry x.1.fs).card = 15 := by
    decide +kernel
  obtain ⟨⟨c, outs⟩, hrunAll, hfree⟩ := heval
  have hrun := Machine.run_of_guarded hrunAll
  exact ⟨_, c, hrun, (space_conserved consistent_oneFileFs hrun).1, hfree⟩

end MCertikos.FS
