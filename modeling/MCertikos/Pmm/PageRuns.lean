/-
# No page is handed out twice

`palloc` resumes behind the page it handed out last and starts from the bottom after a failure, so
what it returns depends on the whole history of calls.
-/

import MCertikos.Math.Run
import MCertikos.Pmm.PageAlloc

namespace MCertikos.Pmm

open Math Function

inductive PageOp where
  | palloc
  | pfree (i : ℕ)
  deriving DecidableEq

structure PageLedger where
  table : AllocTable
  held : List ℕ

def pageMachine : Machine PageLedger PageOp ℕ where
  exec s
    | .palloc =>
      let (i, table) := s.table.palloc
      some (⟨table, if i = 0 then s.held else i :: s.held⟩, i)
    | .pfree i => some (⟨s.table.pfree i, s.held.erase i⟩, 0)

def PageOp.Holds (s : PageLedger) : PageOp → Prop
  | .palloc => True
  | .pfree i => i ∈ s.held

instance (s : PageLedger) (op : PageOp) : Decidable (op.Holds s) := by
  cases op <;> unfold PageOp.Holds <;> infer_instance

namespace AllocTable

theorem palloc_numPages (t : AllocTable) : t.palloc.2.numPages = t.numPages := by
  rw [palloc, apply_ite Prod.snd]
  split <;> rfl

theorem palloc_perm (t : AllocTable) : t.palloc.2.perm = t.perm := by
  rw [palloc, apply_ite Prod.snd]
  split <;> rfl

theorem atIsAllocated_update {t t' : AllocTable} {i flag : ℕ}
    (h : t'.allocated = update t.allocated i flag) (p : ℕ) :
    t'.atIsAllocated p = if p = i then flag != 0 else t.atIsAllocated p := by
  unfold atIsAllocated
  rw [h, update_apply]
  split <;> rfl

end AllocTable

structure LedgerInv (t : AllocTable) (s : PageLedger) : Prop where
  numPages_eq : s.table.numPages = t.numPages
  perm_eq : s.table.perm = t.perm
  nodup : s.held.Nodup
  marked : ∀ p, s.table.atIsAllocated p = true ↔ t.atIsAllocated p = true ∨ p ∈ s.held
  fresh : ∀ p ∈ s.held, t.atIsAllocated p = false

namespace LedgerInv

variable {t : AllocTable} {s s' : PageLedger} {op : PageOp} {out : ℕ}

theorem init (t : AllocTable) : LedgerInv t ⟨t, []⟩ where
  numPages_eq := rfl
  perm_eq := rfl
  nodup := List.nodup_nil
  marked p := by simp
  fresh p hp := absurd hp List.not_mem_nil

theorem not_marked {p : ℕ} (h : LedgerInv t s) (hfree : s.table.atIsAllocated p = false) :
    t.atIsAllocated p = false ∧ p ∉ s.held := by
  have hmarked := (h.marked p).not.mp (Bool.eq_false_iff.mp hfree)
  obtain ⟨hold, hheld⟩ := not_or.mp hmarked
  exact ⟨Bool.eq_false_iff.mpr hold, hheld⟩

theorem palloc (h : LedgerInv t s) :
    LedgerInv t ⟨s.table.palloc.2, if s.table.palloc.1 = 0 then s.held
      else s.table.palloc.1 :: s.held⟩ := by
  have hnum := s.table.palloc_numPages.trans h.numPages_eq
  have hperm := s.table.palloc_perm.trans h.perm_eq
  obtain ⟨i, -, hi, hpos, -, hfree, hset⟩ | ⟨-, hzero, hsame⟩ := s.table.palloc_cases
  · obtain ⟨hold, hheld⟩ := h.not_marked hfree.2
    rw [hi, if_neg (Nat.ne_of_gt hpos)]
    refine ⟨hnum, hperm, List.nodup_cons.mpr ⟨hheld, h.nodup⟩, fun p => ?_, ?_⟩
    · rw [AllocTable.atIsAllocated_update hset, List.mem_cons]
      by_cases hp : p = i
      · simp [hp]
      · rw [if_neg hp, h.marked]
        simp [hp]
    · intro p hp
      obtain rfl | hp := List.mem_cons.mp hp
      · exact hold
      · exact h.fresh p hp
  · rw [if_pos hzero]
    refine ⟨hnum, hperm, h.nodup, fun p => ?_, h.fresh⟩
    rw [← h.marked, AllocTable.atIsAllocated, hsame, AllocTable.atIsAllocated]

theorem pfree {i : ℕ} (h : LedgerInv t s) (hi : i ∈ s.held) :
    LedgerInv t ⟨s.table.pfree i, s.held.erase i⟩ := by
  refine ⟨h.numPages_eq, h.perm_eq, h.nodup.erase i, fun p => ?_,
    fun p hp => h.fresh p (List.mem_of_mem_erase hp)⟩
  rw [AllocTable.atIsAllocated_update rfl, h.nodup.mem_erase_iff]
  by_cases hp : p = i
  · simp [hp, h.fresh i hi]
  · simp [hp, h.marked]

theorem step (h : LedgerInv t s) (hop : op.Holds s)
    (hexec : pageMachine.exec s op = some (s', out)) : LedgerInv t s' := by
  cases op with
  | palloc =>
    obtain ⟨rfl, -⟩ := Prod.mk.inj (Option.some.inj hexec)
    exact h.palloc
  | pfree i =>
    obtain ⟨rfl, -⟩ := Prod.mk.inj (Option.some.inj hexec)
    exact h.pfree hop

end LedgerInv

/-- **No page is handed out twice.** If only pages that are held are freed, the pages held are
pairwise distinct and are the pages marked beyond those marked in the beginning; and a page
`palloc` returns next is normal, within the table and not marked, and gets marked while all
other flags stay. -/
theorem palloc_pages_distinct {t : AllocTable} {trace : List (PageOp × ℕ)} {s : PageLedger}
    (hrun : pageMachine.Run (fun s op => op.Holds s) ⟨t, []⟩ trace s) : s.held.Nodup ∧
    (∀ p, p ∈ s.held ↔ s.table.atIsAllocated p = true ∧ t.atIsAllocated p = false) ∧
    (∀ p, t.atIsAllocated p = true → s.table.atIsAllocated p = true) ∧
    (∀ p, s.table.palloc.1 = p → p ≠ 0 →
      1 ≤ p ∧ p < t.numPages ∧ t.atIsNorm p = true ∧ s.table.atIsAllocated p = false ∧
      s.table.palloc.2.allocated = update s.table.allocated p 1) ∧
    (s.table.palloc.1 = 0 → s.table.palloc.2.allocated = s.table.allocated) := by
  have h : LedgerInv t s := hrun.invariant (LedgerInv.init t) LedgerInv.step
  refine ⟨h.nodup, fun p => ?_, fun p hp => (h.marked p).mpr (Or.inl hp), ?_, ?_⟩
  · constructor
    · exact fun hp => ⟨(h.marked p).mpr (Or.inr hp), h.fresh p hp⟩
    · rintro ⟨hmarked, hfresh⟩
      obtain hold | hheld := (h.marked p).mp hmarked
      · rw [hold] at hfresh
        cases hfresh
      · exact hheld
  · rintro p rfl hne
    obtain ⟨i, -, rfl, hpos, hlt, ⟨hnorm, hfree⟩, hset⟩ | ⟨-, hzero, -⟩ := s.table.palloc_cases
    · rw [AllocTable.atIsNorm, h.perm_eq] at hnorm
      exact ⟨hpos, h.numPages_eq ▸ hlt, hnorm, hfree, hset⟩
    · exact absurd hzero hne
  · intro hzero
    obtain ⟨i, -, rfl, hpos, -⟩ | ⟨-, -, hsame⟩ := s.table.palloc_cases
    · omega
    · exact hsame

def threePages : AllocTable where
  numPages := 4
  perm i := if i = 0 then 1 else 2
  allocated i := if i = 3 then 1 else 0
  lastPallocIndex := 0

theorem palloc_pages_distinct_of_reuse :
    ∃ s, pageMachine.Run (fun s op => op.Holds s) ⟨threePages, []⟩
        [(.palloc, 1), (.palloc, 2), (.palloc, 0), (.pfree 1, 0)] s ∧
      s.held = [2] ∧ s.held.Nodup ∧ s.table.palloc.1 = 1 ∧
      s.table.atIsAllocated 1 = false := by
  have heval : ∃ r ∈ (pageMachine.guarded fun s op => op.Holds s).runAll ⟨threePages, []⟩
      [.palloc, .palloc, .palloc, .pfree 1], r.2 = [1, 2, 0, 0] ∧ r.1.held = [2] ∧
      r.1.table.palloc.1 = 1 := by
    decide +kernel
  obtain ⟨⟨s, _⟩, hrunAll, rfl, hheld, hnext⟩ := heval
  have hrun := Machine.run_of_guarded hrunAll
  obtain ⟨hnodup, -, -, hpage, -⟩ := palloc_pages_distinct hrun
  exact ⟨s, hrun, hheld, hnodup, hnext, (hpage 1 hnext (by decide)).2.2.2.1⟩

end MCertikos.Pmm
