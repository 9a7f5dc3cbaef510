/-
# The remembered page and the full scan

`palloc` is the naive allocator with a memory: instead of scanning the table from the start it
resumes behind the page it handed out last.
-/

import MCertikos.Pmm.PageRuns

namespace MCertikos.Pmm

open Math

namespace AllocTable

variable {t t' : AllocTable} {op : PageOp} {out : ℕ}

/-- The allocator without a memory: the first free page of the whole table. -/
def naivePalloc (t : AllocTable) : ℕ :=
  ((List.range' 1 (t.numPages - 1)).find? fun i => t.Free i).getD 0

theorem naivePalloc_eq_zero_iff (t : AllocTable) :
    t.naivePalloc = 0 ↔ ∀ p, 1 ≤ p → p < t.numPages → ¬ t.Free p := by
  unfold naivePalloc
  cases hfind : (List.range' 1 (t.numPages - 1)).find? fun i => t.Free i with
  | some i =>
    have hfree : t.Free i := by simpa using List.find?_some hfind
    have hmem := List.mem_range'_1.mp (List.mem_of_find?_eq_some hfind)
    constructor
    · intro hzero
      rw [Option.getD_some] at hzero
      omega
    · exact fun hnone => absurd hfree (hnone i hmem.1 (by omega))
  | none =>
    refine iff_of_true rfl fun p hpos hlt hfree => ?_
    have hmem : p ∈ List.range' 1 (t.numPages - 1) := List.mem_range'_1.mpr ⟨hpos, by omega⟩
    exact absurd (decide_eq_true hfree) (List.find?_eq_none.mp hfind p hmem)

theorem palloc_eq_zero_iff (t : AllocTable) :
    t.palloc.1 = 0 ↔ ∀ p, t.lastPallocIndex < p → p < t.numPages → ¬ t.Free p := by
  obtain ⟨i, hfree, rfl, hpos, -⟩ | ⟨hnone, hzero, -⟩ := t.palloc_cases
  · refine iff_of_false (Nat.ne_of_gt hpos) fun hall => ?_
    obtain ⟨p, hlast, hlt, hp⟩ := hfree
    exact hall p hlast hlt hp
  · exact iff_of_true hzero fun p hlast hlt hp => hnone ⟨p, hlast, hlt, hp⟩

theorem not_free_of_lt_pallocScan {p : ℕ} (hlast : t.lastPallocIndex < p)
    (hlt : p < t.pallocScan) : ¬ t.Free p := by
  intro hfree
  unfold pallocScan at hlt
  cases hfind : (List.range' (t.lastPallocIndex + 1)
      (t.numPages - (t.lastPallocIndex + 1))).find? fun i => t.Free i with
  | some i =>
    rw [hfind, Option.getD_some] at hlt
    have hbefore := (List.find?_range'_eq_some.mp hfind).2.2 p hlast hlt
    simp [hfree] at hbefore
  | none =>
    rw [hfind, Option.getD_none] at hlt
    have hmem : p ∈ List.range' (t.lastPallocIndex + 1)
        (t.numPages - (t.lastPallocIndex + 1)) := List.mem_range'_1.mpr ⟨hlast, by omega⟩
    exact absurd (decide_eq_true hfree) (List.find?_eq_none.mp hfind p hmem)

/-- Every free page lies behind the remembered one. -/
def FreeBehind (t : AllocTable) : Prop :=
  ∀ p, 1 ≤ p → p < t.numPages → t.Free p → t.lastPallocIndex < p

/-- `palloc` and the full scan agree on whether there is a page. -/
def Agrees (t : AllocTable) : Prop := t.palloc.1 = 0 ↔ t.naivePalloc = 0

theorem agrees_iff (t : AllocTable) : t.Agrees ↔ t.HasFree ∨ t.naivePalloc = 0 := by
  rw [Agrees, palloc_eq_zero_iff, naivePalloc_eq_zero_iff]
  constructor
  · intro hagrees
    by_cases hfree : t.HasFree
    · exact .inl hfree
    · exact .inr (hagrees.mp fun p hlast hlt hp => hfree ⟨p, hlast, hlt, hp⟩)
  · rintro (⟨p, hlast, hlt, hp⟩ | hnone)
    · exact iff_of_false (fun hall => hall p hlast hlt hp)
        fun hall => hall p (by omega) hlt hp
    · exact iff_of_true (fun p hlast => hnone p (by omega)) hnone

theorem FreeBehind.agrees (h : t.FreeBehind) : t.Agrees := by
  rw [agrees_iff, naivePalloc_eq_zero_iff]
  by_cases hfree : t.HasFree
  · exact .inl hfree
  · exact .inr fun p hpos hlt hp => hfree ⟨p, h p hpos hlt hp, hlt, hp⟩

theorem freeBehind_of_fail (hscan : t.pallocScan = t.numPages) : t.palloc.2.FreeBehind := by
  rw [palloc, if_pos hscan]
  intro p hpos _ _
  rw [Nat.zero_mod]
  exact hpos

theorem free_of_atSetAllocated {i flag p : ℕ} (hne : p ≠ i)
    (hfree : (t.atSetAllocated i flag).Free p) : t.Free p := by
  obtain ⟨hnorm, hflag⟩ := hfree
  rw [atIsAllocated_update rfl, if_neg hne] at hflag
  exact ⟨hnorm, hflag⟩

theorem FreeBehind.palloc (h : t.FreeBehind) : t.palloc.2.FreeBehind := by
  obtain ⟨hlast, hlt, -⟩ | ⟨hscan, -⟩ := t.pallocScan_cases
  · rw [AllocTable.palloc, if_neg (Nat.ne_of_lt hlt)]
    intro p hpos hp hfree
    have hset : (t.atSetAllocated t.pallocScan 1).Free p := hfree
    have hne : p ≠ t.pallocScan := by
      rintro rfl
      have hflag := hset.2
      rw [atIsAllocated_update rfl, if_pos rfl] at hflag
      cases hflag
    have hold := free_of_atSetAllocated hne hset
    have hge : t.pallocScan ≤ p :=
      Nat.le_of_not_lt fun hbefore =>
        not_free_of_lt_pallocScan (h p hpos hp hold) hbefore hold
    rw [Nat.mod_eq_of_lt hlt]
    exact Nat.lt_of_le_of_ne hge hne.symm
  · exact freeBehind_of_fail hscan

theorem FreeBehind.pfree {i : ℕ} (h : t.FreeBehind)
    (hi : t.Free i ∨ t.atIsNorm i = false ∨ i = 0 ∨ t.lastPallocIndex < i) :
    (t.pfree i).FreeBehind := by
  intro p hpos hlt hfree
  by_cases hp : p = i
  · subst hp
    obtain hold | hnorm | hzero | hlast := hi
    · exact h p hpos hlt hold
    · exact absurd (hfree.1.symm.trans hnorm) (by decide)
    · omega
    · exact hlast
  · exact h p hpos hlt (free_of_atSetAllocated hp hfree)

end AllocTable

/-- `palloc` and `pfree` on a table of at least one page. -/
def scanMachine : Machine AllocTable PageOp ℕ where
  exec t
    | .palloc => if 0 < t.numPages then some (t.palloc.2, t.palloc.1) else none
    | .pfree i => some (t.pfree i, 0)

/-- The operation frees no page at or before the remembered one. -/
def PageOp.FreesBehind (t : AllocTable) : PageOp → Prop
  | .palloc => True
  | .pfree i => t.Free i ∨ t.atIsNorm i = false ∨ i = 0 ∨ t.lastPallocIndex < i

theorem AllocTable.FreeBehind.step {t t' : AllocTable} {op : PageOp} {out : ℕ}
    (h : t.FreeBehind) (hop : op.FreesBehind t)
    (hexec : scanMachine.exec t op = some (t', out)) : t'.FreeBehind := by
  cases op with
  | palloc =>
    obtain ⟨-, hsome⟩ := Option.ite_none_right_eq_some.mp hexec
    obtain ⟨rfl, -⟩ := Prod.mk.inj (Option.some.inj hsome)
    exact h.palloc
  | pfree i =>
    obtain ⟨rfl, -⟩ := Prod.mk.inj (Option.some.inj hexec)
    exact h.pfree hop

/-- **The remembered page costs an allocation just where all free pages lie before it.** In every
table, so in every state of every run, `palloc` reports failure exactly if a scan of the whole
table finds no page, if and only if a page behind the remembered one is free or none at all.  That
is so along every run that starts with all free pages behind the remembered one and frees none
before it, and, whatever was freed, in the call after one that failed. -/
theorem palloc_agrees_with_scan (t : AllocTable) :
    (t.naivePalloc = 0 ↔ ∀ p, 1 ≤ p → p < t.numPages → ¬ t.Free p) ∧
    (t.Agrees ↔ t.HasFree ∨ t.naivePalloc = 0) ∧
    (∀ s trace, t.FreeBehind →
      scanMachine.Run (fun t op => op.FreesBehind t) t trace s → s.Agrees) ∧
    (t.palloc.1 = 0 → t.palloc.2.Agrees) := by
  refine ⟨t.naivePalloc_eq_zero_iff, t.agrees_iff, fun s trace hstart hrun => ?_, fun hzero => ?_⟩
  · exact (hrun.invariant hstart AllocTable.FreeBehind.step).agrees
  · obtain ⟨hlast, hlt, -⟩ | ⟨hscan, -⟩ := t.pallocScan_cases
    · rw [AllocTable.palloc, if_neg (Nat.ne_of_lt hlt)] at hzero
      omega
    · exact (AllocTable.freeBehind_of_fail hscan).agrees

/-- The table after `pmem_init`, for a machine with three user pages. -/
def bootPages : AllocTable where
  numPages := 262147
  perm i := if i < vmUserloPi then 1 else 2
  allocated _ := 0
  lastPallocIndex := 262144

theorem palloc_agrees_with_scan_at_boot : bootPages.Agrees ∧ bootPages.palloc.1 = 262145 := by
  have hfree : bootPages.HasFree := ⟨262145, by decide, by decide, by decide⟩
  exact ⟨(palloc_agrees_with_scan bootPages).2.1.mpr (.inl hfree), by decide +kernel⟩

/-- **`palloc` reports failure with a page free.** Both pages behind the first user page are
handed out, and one of them is freed: the next call returns 0, for it looks only behind the
last page. -/
theorem palloc_fails_with_free_page : ∃ s, scanMachine.Run Machine.anyStep bootPages
        [(.palloc, 262145), (.palloc, 262146), (.pfree 262145, 0)] s ∧
      s.palloc.1 = 0 ∧ 1 ≤ 262145 ∧ 262145 < s.numPages ∧ s.Free 262145 := by
  have heval : ∃ r ∈ scanMachine.runAll bootPages [.palloc, .palloc, .pfree 262145],
      r.2 = [262145, 262146, 0] ∧ r.1.palloc.1 = 0 ∧ 262145 < r.1.numPages ∧
        r.1.Free 262145 := by
    decide +kernel
  obtain ⟨⟨s, _⟩, hrunAll, rfl, hzero, hlt, hfree⟩ := heval
  exact ⟨s, Machine.run_of_runAll (fun _ _ _ => trivial) hrunAll, hzero, by decide, hlt, hfree⟩

end MCertikos.Pmm
