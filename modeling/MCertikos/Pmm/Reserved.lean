/-
# Reserved memory

`pmem_init` asks the first region in the order of the list that contains a page.
-/

import MCertikos.Pmm.MemInit
import MCertikos.Pmm.PageRuns

namespace MCertikos.Pmm

open Math

/-- Address `a` lies in page `i`. -/
def InPage (i a : ℕ) : Prop := i * 4096 ≤ a ∧ a < (i + 1) * 4096

/-- No address of page `i` belongs to an entry that is not usable. -/
def Unreserved (es : List MbootMmap) (i : ℕ) : Prop :=
  ∀ e ∈ es, e.type ≠ 1 → ∀ a, InPage i a → ¬ e.Covers a

/-- In the user window no reserved entry meets a page that a usable region decides on. -/
def Consistent (es : List MbootMmap) : Prop :=
  ∀ i, vmUserloPi ≤ i → i < vmUserhiPi → ∀ r ∈ deciding es i, r.type = 1 → Unreserved es i

/-- The pages that `palloc` handed out along a run are normal pages of the table. -/
structure Handed (t : AllocTable) (past : List (PageOp × ℕ)) (s : PageLedger) : Prop where
  numPages : s.table.numPages = t.numPages
  perm : s.table.perm = t.perm
  normal : ∀ i, (PageOp.palloc, i) ∈ past → i ≠ 0 → i < t.numPages ∧ t.atIsNorm i = true

namespace Handed

variable {t : AllocTable} {past : List (PageOp × ℕ)} {s s' : PageLedger} {op : PageOp} {out : ℕ}

theorem step (h : Handed t past s) (hexec : pageMachine.exec s op = some (s', out)) :
    Handed t (past ++ [(op, out)]) s' := by
  cases op with
  | palloc =>
    obtain ⟨rfl, hout⟩ := Prod.mk.inj (Option.some.inj hexec)
    refine ⟨s.table.palloc_numPages.trans h.numPages, s.table.palloc_perm.trans h.perm, ?_⟩
    intro i hi hne
    rw [List.mem_append, List.mem_singleton, Prod.mk.injEq] at hi
    obtain hi | ⟨-, rfl⟩ := hi
    · exact h.normal i hi hne
    · obtain ⟨j, -, hpage, -, hlt, hfree, -⟩ | ⟨-, hzero, -⟩ := s.table.palloc_cases
      · obtain rfl : j = i := hpage.symm.trans hout
        rw [← h.numPages, AllocTable.atIsNorm, ← h.perm]
        exact ⟨hlt, hfree.1⟩
      · exact absurd (hout.symm.trans hzero) hne
  | pfree j =>
    obtain ⟨rfl, rfl⟩ := Prod.mk.inj (Option.some.inj hexec)
    refine ⟨h.numPages, h.perm, fun i hi => h.normal i ?_⟩
    simpa using hi

end Handed

end MCertikos.Pmm
