/-
# The usage of a container is what it uses

The usage of a container is the number of pages it holds plus the quotas of its children, as long
as every allocation within the quota finds a page.
-/

import MCertikos.Pmm.Container
import Mathlib.Algebra.BigOperators.Group.Finset.Piecewise
import Mathlib.Algebra.BigOperators.Ring.Finset
import Mathlib.Algebra.Order.BigOperators.Group.Finset
import Mathlib.Tactic.Ring

namespace MCertikos.Pmm

open Math Thread Books Function

def childQuota (s : Mem) (id : ℕ) : ℕ := ∑ c ∈ children s id, (s.container c).quota.toNat

structure QuotaInv (s : Books) : Prop where
  small : ∀ c < numIds, (s.pmm.container c).quota.toNat < 2 ^ 31
  within : ∀ c < numIds, (s.pmm.container c).usage.toNat ≤ (s.pmm.container c).quota.toNat
  books : ∀ c < numIds,
    (s.pmm.container c).usage.toNat = (s.held c).card + childQuota s.pmm c
  parent : ∀ c < numIds, c ≠ 0 → (s.pmm.container c).used = true →
    (s.pmm.container c).parent = BitVec.ofNat 32 ((c - 1) / maxChildren)
  unused : ∀ c < numIds, (s.pmm.container c).used = false → (s.pmm.container c).quota = 0
  unborn : ∀ c < numIds, c ≠ 0 →
    (s.pmm.container ((c - 1) / maxChildren)).nchildren.toNat ≤ (c - 1) % maxChildren →
    (s.pmm.container c).quota = 0
  few : ∀ c < numIds, (s.pmm.container c).nchildren.toNat ≤ maxChildren
  allocated : ∀ id, ∀ p ∈ s.held id, s.pmm.table.atIsAllocated p = true
  disjoint : ∀ id id' p, p ∈ s.held id → p ∈ s.held id' → id = id'

/-! ## The initial state -/

theorem pageCount_le (mm : List MemRange) : pageCount mm ≤ 2 ^ 20 := by
  have hfold : ∀ (mm : List MemRange) (nps : ℕ), nps ≤ 2 ^ 20 →
      mm.foldl (fun nps row =>
        let maxs := (row.start + row.len).toNat / pagesize + 1
        if nps < maxs then maxs else nps) nps ≤ 2 ^ 20 := by
    intro mm
    induction mm with
    | nil => exact fun nps hnps => hnps
    | cons row mm ih =>
      intro nps hnps
      refine ih _ ?_
      have hlt := (row.start + row.len).isLt
      dsimp only [pagesize]
      split <;> omega
  exact hfold mm 0 (by omega)

theorem realQuota_le (t : AllocTable) : Mem.realQuota t ≤ t.numPages := by
  have hle := List.countP_le_length (p := fun i => decide (t.Free i))
    (l := List.range' 1 (t.numPages - 1))
  rw [List.length_range'] at hle
  unfold Mem.realQuota
  omega

theorem quotaInv_boot (t : AllocTable) (mm : List MemRange) : QuotaInv (Books.boot t mm) := by
  have hquota : Mem.realQuota (t.pmemInit mm) < 2 ^ 31 :=
    (realQuota_le _).trans_lt ((pageCount_le mm).trans_lt (by decide))
  have hzero : ∀ c, c ≠ 0 → (Books.boot t mm).pmm.container c = ⟨0, 0, 0, 0, false⟩ :=
    fun c hc => by simp [Books.boot, Mem.containerInit, hc]
  have hchildren : ∀ id, childQuota (Books.boot t mm).pmm id = 0 := by
    intro id
    refine Finset.sum_eq_zero fun c hc => ?_
    rw [hzero c (Finset.mem_filter.mp hc).2.1]
    rfl
  have husage : ∀ c, ((Books.boot t mm).pmm.container c).usage = 0 := by
    intro c
    by_cases hc : c = 0
    · subst hc
      rfl
    · rw [hzero c hc]
  refine ⟨fun c _ => ?_, fun c _ => ?_, fun c _ => ?_, fun c _ hc hused => ?_,
    fun c _ hused => ?_, fun c _ hc _ => ?_, fun c _ => ?_, fun id p hp => ?_,
    fun id id' p hp => ?_⟩
  · by_cases hc : c = 0
    · subst hc
      have hlt : Mem.realQuota (t.pmemInit mm) % 2 ^ 32 < 2 ^ 31 := by omega
      simpa [Books.boot, Mem.containerInit] using hlt
    · rw [hzero c hc]
      decide
  · rw [husage]
    exact Nat.zero_le _
  · rw [husage, hchildren]
    rfl
  · rw [hzero c hc] at hused
    cases hused
  · by_cases hc : c = 0
    · subst hc
      cases hused
    · rw [hzero c hc]
  · rw [hzero c hc]
  · by_cases hc : c = 0
    · subst hc
      exact Nat.zero_le _
    · rw [hzero c hc]
      exact Nat.zero_le _
  · exact absurd hp (Finset.notMem_empty p)
  · exact absurd hp (Finset.notMem_empty p)

/-! ## Charging a container -/

structure Charged (s s' : Mem) (id : ℕ) (usage : BitVec 32) : Prop where
  container : s'.container = update s.container id { s.container id with usage := usage }

namespace Charged

variable {s s' : Mem} {id c : ℕ} {usage : BitVec 32}

theorem quota (h : Charged s s' id usage) (c : ℕ) :
    (s'.container c).quota = (s.container c).quota := by
  rw [h.container]
  by_cases hc : c = id
  · subst hc
    rw [update_self]
  · rw [update_of_ne hc]

theorem rest (h : Charged s s' id usage) (c : ℕ) :
    (s'.container c).parent = (s.container c).parent ∧
      (s'.container c).used = (s.container c).used ∧
      (s'.container c).nchildren = (s.container c).nchildren := by
  rw [h.container]
  by_cases hc : c = id
  · subst hc
    simp
  · simp [hc]

theorem children_eq (h : Charged s s' id usage) (c : ℕ) : children s' c = children s c := by
  unfold children
  simp only [(h.rest _).1, (h.rest _).2.1]

theorem childQuota_eq (h : Charged s s' id usage) (c : ℕ) : childQuota s' c = childQuota s c := by
  unfold childQuota
  rw [h.children_eq]
  exact Finset.sum_congr rfl fun d _ => by rw [h.quota]

theorem quotaInv {b : Books} {pmm : Mem} {held : ℕ → Finset ℕ}
    (hcharged : Charged b.pmm pmm id usage) (h : QuotaInv b)
    (hwithin : id < numIds → usage.toNat ≤ (b.pmm.container id).quota.toNat)
    (hbooks : id < numIds → usage.toNat = (held id).card + childQuota b.pmm id)
    (hheld : ∀ c, c ≠ id → held c = b.held c)
    (hallocated : ∀ id, ∀ p ∈ held id, pmm.table.atIsAllocated p = true)
    (hdisjoint : ∀ id id' p, p ∈ held id → p ∈ held id' → id = id') : QuotaInv ⟨pmm, held⟩ where
  small c hc := by
    rw [hcharged.quota]
    exact h.small c hc
  within c hc := by
    rw [hcharged.quota]
    by_cases heq : c = id
    · subst heq
      rw [hcharged.container, update_self]
      exact hwithin hc
    · rw [hcharged.container, update_of_ne heq]
      exact h.within c hc
  books c hc := by
    rw [hcharged.childQuota_eq]
    by_cases heq : c = id
    · subst heq
      rw [hcharged.container, update_self]
      exact hbooks hc
    · rw [hcharged.container, update_of_ne heq]
      change _ = (held c).card + _
      rw [hheld c heq]
      exact h.books c hc
  parent c hc hne hused := by
    rw [(hcharged.rest c).2.1] at hused
    rw [(hcharged.rest c).1]
    exact h.parent c hc hne hused
  unused c hc hused := by
    rw [(hcharged.rest c).2.1] at hused
    rw [hcharged.quota]
    exact h.unused c hc hused
  unborn c hc hne hlt := by
    rw [(hcharged.rest _).2.2] at hlt
    rw [hcharged.quota]
    exact h.unborn c hc hne hlt
  few c hc := by
    rw [(hcharged.rest c).2.2]
    exact h.few c hc
  allocated := hallocated
  disjoint := hdisjoint

end Charged

/-! ## The three operations -/

variable {s next : Books} {id page : ℕ} {out : ℕ} {quota : BitVec 32}

theorem QuotaInv.toNat_succ (h : QuotaInv s) (hid : id < numIds)
    (hne : (s.pmm.container id).usage ≠ (s.pmm.container id).quota) :
    ((s.pmm.container id).usage + 1).toNat = (s.pmm.container id).usage.toNat + 1 ∧
      (s.pmm.container id).usage.toNat < (s.pmm.container id).quota.toNat := by
  have hsmall := h.small id hid
  have hlt := lt_of_le_of_ne (h.within id hid) (mt BitVec.eq_of_toNat_eq hne)
  refine ⟨?_, hlt⟩
  have hone : (1 : BitVec 32).toNat = 1 := rfl
  rw [BitVec.toNat_add, hone]
  exact Nat.mod_eq_of_lt (by omega)

theorem QuotaInv.not_held (h : QuotaInv s) (hfree : s.pmm.table.Free page) (id : ℕ) :
    page ∉ s.held id := by
  intro hmem
  exact absurd (h.allocated id page hmem) (by simp [hfree.2])

theorem exec_alloc (hid : id < numIds) : Books.exec s (.alloc id) =
      some (⟨(s.pmm.containerAlloc id).2, credit s.held id (s.pmm.containerAlloc id).1⟩,
        (s.pmm.containerAlloc id).1) :=
  if_pos hid

theorem alloc_cases (hexec : Books.exec s (.alloc id) = some (next, out)) : id < numIds ∧
      ((s.pmm.container id).usage = (s.pmm.container id).quota ∧ next = s ∧ out = 0 ∨
        (s.pmm.container id).usage ≠ (s.pmm.container id).quota ∧
          Charged s.pmm next.pmm id ((s.pmm.container id).usage + 1) ∧
          (s.pmm.table.HasFree ∧ 0 < out ∧ s.pmm.table.Free out ∧
              next.held = update s.held id (insert out (s.held id)) ∧
              next.pmm.table.allocated = update s.pmm.table.allocated out 1 ∨
            ¬ s.pmm.table.HasFree ∧ out = 0 ∧ next.held = s.held)) := by
  simp only [Books.exec, Option.ite_none_right_eq_some, Option.some.injEq,
    Prod.mk.injEq] at hexec
  obtain ⟨hid, rfl, rfl⟩ := hexec
  refine ⟨hid, ?_⟩
  unfold Mem.containerAlloc
  dsimp only
  split
  · next heq => exact Or.inl ⟨heq, rfl, rfl⟩
  · next hne =>
    refine Or.inr ⟨hne, ⟨rfl⟩, ?_⟩
    rw [show (s.pmm.setContainer id _).table = s.pmm.table from rfl]
    obtain ⟨i, hsome, hi, hpos, -, hfree, hallocated⟩ | ⟨hnone, hzero, -⟩ :=
      s.pmm.table.palloc_cases
    · rw [hi, credit, if_neg (Nat.pos_iff_ne_zero.mp hpos)]
      exact Or.inl ⟨hsome, hpos, hfree, rfl, hallocated⟩
    · rw [hzero]
      exact Or.inr ⟨hnone, rfl, rfl⟩

variable {held : ℕ → Finset ℕ}

theorem mem_update_insert {i c p : ℕ} (hmem : p ∈ update held id (insert i (held id)) c) :
    c = id ∧ p = i ∨ p ∈ held c := by
  by_cases hc : c = id
  · subst hc
    rw [update_self, Finset.mem_insert] at hmem
    exact hmem.imp_left fun hp => ⟨rfl, hp⟩
  · rw [update_of_ne hc] at hmem
    exact Or.inr hmem

theorem QuotaInv.alloc (h : QuotaInv s) (hfound : s.PageFound id)
    (hexec : Books.exec s (.alloc id) = some (next, out)) : QuotaInv next := by
  obtain ⟨hid, ⟨-, rfl, -⟩ | ⟨hne, hcharged, hpage⟩⟩ := alloc_cases hexec
  · exact h
  obtain ⟨-, -, hfree, hheld, hallocated⟩ | ⟨hnone, -⟩ := hpage
  · obtain ⟨hsucc, hlt⟩ := h.toNat_succ hid hne
    have hfresh := h.not_held hfree
    have hinv : QuotaInv ⟨next.pmm, next.held⟩ := by
      rw [hheld]
      refine hcharged.quotaInv h (fun _ => by omega) (fun _ => ?_)
        (fun c hc => update_of_ne hc _ _) (fun c p hp => ?_) (fun c c' p hp hp' => ?_)
      · rw [hsucc, h.books id hid, update_self, Finset.card_insert_of_notMem (hfresh id)]
        ring
      · simp only [AllocTable.atIsAllocated, hallocated]
        by_cases heq : p = out
        · simp [heq]
        · rw [update_of_ne heq]
          exact h.allocated c p ((mem_update_insert hp).resolve_left fun hpi => heq hpi.2)
      · rcases mem_update_insert hp with ⟨hc, rfl⟩ | hold
        · rcases mem_update_insert hp' with ⟨hc', -⟩ | hold'
          · exact hc.trans hc'.symm
          · exact absurd hold' (hfresh c')
        · rcases mem_update_insert hp' with ⟨-, rfl⟩ | hold'
          · exact absurd hold (hfresh c)
          · exact h.disjoint c c' p hold hold'
    exact hinv
  · exact absurd (hfound.resolve_left hne) hnone

theorem mem_update_erase {c p : ℕ} (hmem : p ∈ update held id ((held id).erase page) c) :
    p ∈ held c ∧ (c = id → p ≠ page) := by
  by_cases hc : c = id
  · subst hc
    rw [update_self, Finset.mem_erase] at hmem
    exact ⟨hmem.2, fun _ => hmem.1⟩
  · rw [update_of_ne hc] at hmem
    exact ⟨hmem, fun h => absurd h hc⟩

theorem QuotaInv.free (h : QuotaInv s) (hheld : page ∈ s.held id)
    (hexec : Books.exec s (.free id page) = some (next, out)) : QuotaInv next := by
  simp only [Books.exec, Option.ite_none_right_eq_some, Option.some.injEq,
    Prod.mk.injEq] at hexec
  obtain ⟨hid, rfl, -⟩ := hexec
  have hcard := Finset.card_erase_add_one hheld
  have hbooks := h.books id hid
  have husage : 0 < (s.pmm.container id).usage.toInt := by
    have hsmall := h.small id hid
    have hwithin := h.within id hid
    rw [BitVec.toInt_eq_toNat_of_lt (by omega)]
    omega
  have hpred : ((s.pmm.container id).usage - 1).toNat = (s.pmm.container id).usage.toNat - 1 := by
    have hone : (1 : BitVec 32).toNat = 1 := rfl
    have hlt := (s.pmm.container id).usage.isLt
    rw [BitVec.toNat_sub, hone]
    omega
  unfold Mem.containerFree
  rw [if_pos (h.allocated id page hheld)]
  dsimp only
  rw [if_pos husage]
  refine Charged.quotaInv ⟨rfl⟩ h (fun _ => ?_) (fun _ => ?_)
    (fun c hc => update_of_ne hc _ _) (fun c p hp => ?_) (fun c c' p hp hp' => ?_)
  · have hwithin := h.within id hid
    omega
  · rw [hpred, update_self]
    omega
  · obtain ⟨hold, hne⟩ := mem_update_erase hp
    have hpage : p ≠ page := by
      rintro rfl
      exact hne (h.disjoint _ _ _ hold hheld) rfl
    have hallocated := h.allocated c p hold
    simpa [AllocTable.atIsAllocated, AllocTable.pfree, AllocTable.atSetAllocated,
      Mem.setContainer, hpage] using hallocated
  · exact h.disjoint c c' p (mem_update_erase hp).1 (mem_update_erase hp').1

section Split

variable (h : QuotaInv s) (hid : id < numIds) (hchild : s.pmm.nextChild id < numIds)
  (hfew : (s.pmm.container id).nchildren.toNat < maxChildren)

include hfew in
theorem nextChild_pos : s.pmm.nextChild id ≠ 0 ∧
    (s.pmm.nextChild id - 1) / maxChildren = id ∧
    (s.pmm.nextChild id - 1) % maxChildren = (s.pmm.container id).nchildren.toNat := by
  unfold Mem.nextChild maxChildren at *
  omega

include h hchild hfew in
theorem QuotaInv.child_blank : (s.pmm.container (s.pmm.nextChild id)).quota = 0 ∧
    s.held (s.pmm.nextChild id) = ∅ ∧ childQuota s.pmm (s.pmm.nextChild id) = 0 := by
  obtain ⟨hne, hparent, hposition⟩ := nextChild_pos hfew
  have hquota : (s.pmm.container (s.pmm.nextChild id)).quota = 0 :=
    h.unborn _ hchild hne (by rw [hparent, hposition])
  have hwithin := h.within _ hchild
  have hbooks := h.books _ hchild
  rw [hquota] at hwithin
  have hzero : (0 : BitVec 32).toNat = 0 := rfl
  refine ⟨hquota, Finset.card_eq_zero.mp ?_, ?_⟩ <;> omega

def charged (c : Container) (quota : BitVec 32) : Container :=
  { c with usage := c.usage + quota, nchildren := c.nchildren + 1 }

theorem containerSplit_container (c : ℕ) : (s.pmm.containerSplit id quota).2.container c =
      if c = id then charged (s.pmm.container id) quota
      else if c = s.pmm.nextChild id then ⟨quota, 0, BitVec.ofNat 32 id, 0, true⟩
      else s.pmm.container c := by
  have hne : id ≠ s.pmm.nextChild id := by
    unfold Mem.nextChild maxChildren
    omega
  simp only [Mem.containerSplit, Mem.setContainer, update_apply, charged]
  by_cases hc : c = id <;> simp [hc, hne]

include h hid hchild hfew in
theorem QuotaInv.childQuota_split {d : ℕ} (hd : d < numIds) :
    childQuota (s.pmm.containerSplit id quota).2 d =
      childQuota s.pmm d + if d = id then quota.toNat else 0 := by
  obtain ⟨hpos, hparent, -⟩ := nextChild_pos hfew
  obtain ⟨hblank, -⟩ := h.child_blank hchild hfew
  have hsame : BitVec.ofNat 32 id = BitVec.ofNat 32 d ↔ d = id := by
    unfold numIds at hid hd
    rw [← BitVec.toNat_inj, BitVec.toNat_ofNat, BitVec.toNat_ofNat,
      Nat.mod_eq_of_lt (by omega), Nat.mod_eq_of_lt (by omega), eq_comm]
  have hsingle : (if d = id then quota.toNat else 0) =
      ∑ c ∈ Finset.range numIds,
        if c = s.pmm.nextChild id then (if d = id then quota.toNat else 0) else 0 := by
    rw [Finset.sum_ite_eq', if_pos (Finset.mem_range.mpr hchild)]
  unfold childQuota children
  rw [Finset.sum_filter, Finset.sum_filter, hsingle, ← Finset.sum_add_distrib]
  refine Finset.sum_congr rfl fun c _ => ?_
  rw [containerSplit_container]
  by_cases hc : c = s.pmm.nextChild id
  · have hne : c ≠ id := by
      unfold Mem.nextChild maxChildren at hc
      omega
    rw [if_neg hne, if_pos hc, if_pos hc]
    subst hc
    simp [hpos, hblank, hsame]
  · rw [if_neg hc, if_neg hc, Nat.add_zero]
    by_cases hc' : c = id
    · subst hc'
      rw [if_pos rfl]
      rfl
    · rw [if_neg hc']

include h hid in
theorem QuotaInv.few_of_toInt (hfew : (s.pmm.container id).nchildren.toInt < (maxChildren : ℤ)) :
    (s.pmm.container id).nchildren.toNat < maxChildren := by
  have hle := h.few id hid
  unfold maxChildren at *
  rw [BitVec.toInt_eq_toNat_of_lt (by omega)] at hfew
  omega

theorem forall_containerSplit {P : ℕ → Container → Prop}
    (hself : P id (charged (s.pmm.container id) quota))
    (hchild : P (s.pmm.nextChild id) ⟨quota, 0, BitVec.ofNat 32 id, 0, true⟩)
    (hrest : ∀ c, c ≠ id → c ≠ s.pmm.nextChild id → P c (s.pmm.container c)) (c : ℕ) :
    P c ((s.pmm.containerSplit id quota).2.container c) := by
  rw [containerSplit_container]
  by_cases hc : c = id
  · rw [if_pos hc, hc]
    exact hself
  · rw [if_neg hc]
    by_cases hc' : c = s.pmm.nextChild id
    · rw [if_pos hc', hc']
      exact hchild
    · rw [if_neg hc']
      exact hrest c hc hc'

include h hchild hfew in
theorem QuotaInv.unborn_split {c : ℕ} (hc : c < numIds) (hne : c ≠ 0)
    (hsucc : ((s.pmm.container id).nchildren + 1).toNat =
      (s.pmm.container id).nchildren.toNat + 1)
    (hlt : ((s.pmm.containerSplit id quota).2.container ((c - 1) / maxChildren)).nchildren.toNat ≤
      (c - 1) % maxChildren) : ((s.pmm.containerSplit id quota).2.container c).quota = 0 := by
  obtain ⟨-, hparent, hposition⟩ := nextChild_pos hfew
  obtain ⟨-, -, hnone⟩ := h.child_blank hchild hfew
  have hold : c ≠ s.pmm.nextChild id → (s.pmm.container c).quota = 0 →
      ((s.pmm.containerSplit id quota).2.container c).quota = 0 := by
    intro hc' hzero
    rw [containerSplit_container]
    by_cases heq : c = id
    · rw [if_pos heq]
      exact heq ▸ hzero
    · rwa [if_neg heq, if_neg hc']
  rw [containerSplit_container] at hlt
  by_cases hid' : (c - 1) / maxChildren = id
  · rw [if_pos hid', charged, hsucc] at hlt
    refine hold ?_ (h.unborn c hc hne (by rw [hid']; omega))
    rintro rfl
    omega
  · have hc' : c ≠ s.pmm.nextChild id := by
      rintro rfl
      exact hid' hparent
    rw [if_neg hid'] at hlt
    split at hlt
    · -- The new child has no children, and whatever is stored at their indices has no quota.
      next hgrand =>
      refine hold hc' ?_
      cases hused : (s.pmm.container c).used with
      | false => exact h.unused c hc hused
      | true =>
        have hmem : c ∈ children s.pmm (s.pmm.nextChild id) := by
          rw [children, Finset.mem_filter, h.parent c hc hne hused, hgrand]
          exact ⟨Finset.mem_range.mpr hc, hne, hused, rfl⟩
        have hzero := Finset.sum_eq_zero_iff.mp hnone c hmem
        exact BitVec.eq_of_toNat_eq hzero
    · exact hold hc' (h.unborn c hc hne hlt)

include h hid hchild hfew in
theorem QuotaInv.split
    (hleft : (s.pmm.container id).usage.toNat + quota.toNat ≤ (s.pmm.container id).quota.toNat) :
    QuotaInv ⟨(s.pmm.containerSplit id quota).2, s.held⟩ := by
  obtain ⟨hpos, hparent, hposition⟩ := nextChild_pos hfew
  obtain ⟨hblank, hempty, hnone⟩ := h.child_blank hchild hfew
  have hsmall := h.small id hid
  have husage : ((s.pmm.container id).usage + quota).toNat =
      (s.pmm.container id).usage.toNat + quota.toNat := by
    rw [BitVec.toNat_add]
    exact Nat.mod_eq_of_lt (by omega)
  have hsucc : ((s.pmm.container id).nchildren + 1).toNat =
      (s.pmm.container id).nchildren.toNat + 1 := by
    have hone : (1 : BitVec 32).toNat = 1 := rfl
    unfold maxChildren at hfew
    rw [BitVec.toNat_add, hone]
    exact Nat.mod_eq_of_lt (by omega)
  exact {
    small := forall_containerSplit (P := fun c k => c < numIds → k.quota.toNat < 2 ^ 31)
      (fun _ => hsmall) (fun _ => by dsimp only; omega) fun c _ _ => h.small c
    within := forall_containerSplit
      (P := fun c k => c < numIds → k.usage.toNat ≤ k.quota.toNat)
      (fun _ => husage ▸ hleft) (fun _ => Nat.zero_le _) fun c _ _ => h.within c
    books := by
      intro c hc
      dsimp only
      rw [h.childQuota_split hid hchild hfew hc, containerSplit_container]
      have hbooks := h.books c hc
      split
      · next heq =>
        subst heq
        change ((s.pmm.container c).usage + quota).toNat = _
        omega
      · split
        · next heq =>
          subst heq
          rw [hempty, hnone]
          rfl
        · exact hbooks
    parent := forall_containerSplit
      (P := fun c k => c < numIds → c ≠ 0 → k.used = true →
        k.parent = BitVec.ofNat 32 ((c - 1) / maxChildren))
      (h.parent id) (fun _ _ _ => by rw [hparent]) fun c _ _ => h.parent c
    unused := forall_containerSplit (P := fun c k => c < numIds → k.used = false → k.quota = 0)
      (h.unused id) (fun _ hused => nomatch hused) fun c _ _ => h.unused c
    unborn := fun c hc hne hlt => h.unborn_split hchild hfew hc hne hsucc hlt
    few := forall_containerSplit (P := fun c k => c < numIds → k.nchildren.toNat ≤ maxChildren)
      (fun _ => by rw [charged, hsucc]; omega) (fun _ => Nat.zero_le _) fun c _ _ => h.few c
    allocated := h.allocated
    disjoint := h.disjoint }

end Split

/-! ## Runs -/

theorem QuotaInv.step (h : QuotaInv s) {op : QuotaOp} (hop : s.Covered op)
    (hexec : Books.exec s op = some (next, out)) : QuotaInv next := by
  obtain ⟨hpermitted, hfound⟩ := hop
  cases op with
  | alloc id => exact h.alloc (hfound id rfl) hexec
  | free id page => exact h.free hpermitted hexec
  | split id quota =>
    obtain ⟨hleft, hfew⟩ := hpermitted
    simp only [Books.exec, Option.ite_none_right_eq_some, Option.some.injEq,
      Prod.mk.injEq] at hexec
    obtain ⟨⟨hid, hchild⟩, rfl, -⟩ := hexec
    refine h.split hid hchild (h.few_of_toInt hid hfew) ?_
    have hsmall := h.small id hid
    have hwithin := h.within id hid
    rw [BitVec.toInt_eq_toNat_of_lt (by omega), BitVec.toInt_eq_toNat_of_lt (by omega)] at hleft
    omega

theorem quotaInv_of_run {t : AllocTable} {mm : List MemRange} {trace : List (QuotaOp × ℕ)}
    (run : Books.machine.Run Books.Covered (Books.boot t mm) trace s) : QuotaInv s :=
  run.invariant (quotaInv_boot t mm) fun h hop hexec => h.step hop hexec

theorem QuotaInv.accounted (h : QuotaInv s) : s.Accounted := by
  intro id hid _
  have hint : ∀ c < numIds, (s.pmm.container c).quota.toInt =
      ((s.pmm.container c).quota.toNat : ℤ) := by
    intro c hc
    have hsmall := h.small c hc
    exact BitVec.toInt_eq_toNat_of_lt (by omega)
  have hsmall := h.small id hid
  have hwithin := h.within id hid
  have hsum : ∑ c ∈ children s.pmm id, (s.pmm.container c).quota.toInt =
      (childQuota s.pmm id : ℤ) := by
    rw [childQuota, Nat.cast_sum]
    refine Finset.sum_congr rfl fun c hc => hint c ?_
    exact Finset.mem_range.mp (Finset.mem_filter.mp hc).1
  have husage : (s.pmm.container id).usage.toInt = ((s.pmm.container id).usage.toNat : ℤ) :=
    BitVec.toInt_eq_toNat_of_lt (by omega)
  have hbooks := h.books id hid
  rw [hsum, husage, hint id hid]
  omega

theorem QuotaInv.not_accounted (h : QuotaInv s) (hfound : ¬ s.PageFound id)
    (hexec : Books.exec s (.alloc id) = some (next, out)) :
    out = 0 ∧ next.pmm.container ≠ s.pmm.container ∧ ¬ next.Accounted := by
  obtain ⟨hne, hnone⟩ := not_or.mp hfound
  obtain ⟨hid, ⟨heq, -⟩ | ⟨-, hcharged, ⟨hsome, -⟩ | ⟨-, hzero, hheld⟩⟩⟩ := alloc_cases hexec
  · exact absurd heq hne
  · exact absurd hsome hnone
  obtain ⟨hsucc, hlt⟩ := h.toNat_succ hid hne
  have hsmall := h.small id hid
  have hself : (next.pmm.container id).usage = (s.pmm.container id).usage + 1 := by
    rw [hcharged.container, update_self]
  have hint : (next.pmm.container id).usage.toInt = (s.pmm.container id).usage.toInt + 1 := by
    rw [hself, BitVec.toInt_eq_toNat_of_lt (by omega), BitVec.toInt_eq_toNat_of_lt (by omega)]
    omega
  refine ⟨hzero, fun hsame => ?_, fun haccounted => ?_⟩
  · rw [hsame] at hint
    omega
  · have hused : (s.pmm.container id).used = true := by
      by_contra hunused
      rw [h.unused id hid (Bool.eq_false_iff.mpr hunused)] at hlt
      exact absurd hlt (Nat.not_lt_zero _)
    obtain ⟨-, -, hnew⟩ := haccounted id hid ((hcharged.rest id).2.1.trans hused)
    obtain ⟨-, -, hold⟩ := h.accounted id hid hused
    rw [hcharged.children_eq, hheld, hint,
      Finset.sum_congr rfl fun c _ => by rw [hcharged.quota c]] at hnew
    omega

/-- **Quota accounting.** In every state that operations the callers may ask for lead to, if
every allocation within its quota found a page, every used container uses what it holds and what
it gave to its children, and no more than its quota; and an allocation that returns 0 changes no
container.  An allocation within the quota that finds no page changes the container and leaves
the books wrong. -/
theorem accounted_of_run {t : AllocTable} {mm : List MemRange} {trace : List (QuotaOp × ℕ)}
    (run : Books.machine.Run Books.Covered (Books.boot t mm) trace s) :
    s.Accounted ∧ ∀ id next out, Books.exec s (.alloc id) = some (next, out) →
      (s.PageFound id → next.Accounted ∧
        (out = 0 → next.pmm.container = s.pmm.container)) ∧
      (¬ s.PageFound id → out = 0 ∧ next.pmm.container ≠ s.pmm.container ∧
        ¬ next.Accounted) := by
  have hinv := quotaInv_of_run run
  refine ⟨hinv.accounted, fun id next out hexec => ⟨fun hfound => ?_, fun hfound => ?_⟩⟩
  · refine ⟨(hinv.alloc hfound hexec).accounted, fun hzero => ?_⟩
    obtain ⟨-, ⟨-, rfl, -⟩ | ⟨hne, -, ⟨-, hpos, -⟩ | ⟨hnone, -⟩⟩⟩ := alloc_cases hexec
    · rfl
    · exact absurd hzero (Nat.pos_iff_ne_zero.mp hpos)
    · exact absurd (hfound.resolve_left hne) hnone
  · exact hinv.not_accounted hfound hexec

/-! ## A machine with two free pages -/

theorem realQuota_pmemInit (t : AllocTable) (mm : List MemRange) (hmm : vmUserloPi ≤ pageCount mm) :
    Mem.realQuota (t.pmemInit mm) = (List.range' vmUserloPi (pageCount mm - vmUserloPi)).countP
        fun i => (t.pmemInit mm).Free i := by
  have hsplit : List.range' 1 (pageCount mm - 1) =
      List.range' 1 (vmUserloPi - 1) ++ List.range' vmUserloPi (pageCount mm - vmUserloPi) := by
    have hcount : pageCount mm - 1 = vmUserloPi - 1 + (pageCount mm - vmUserloPi) := by
      unfold vmUserloPi at *
      omega
    rw [hcount, ← List.range'_append_1]
    rfl
  have hkernel : (List.range' 1 (vmUserloPi - 1)).countP
      (fun i => decide ((t.pmemInit mm).Free i)) = 0 := by
    refine List.countP_eq_zero.mpr fun i hi => ?_
    have hlt : i < vmUserloPi := by
      have hmem := List.mem_range'_1.mp hi
      unfold vmUserloPi at *
      omega
    simp [AllocTable.Free, AllocTable.atIsNorm, AllocTable.pmemInit, pagePerm, hlt,
      hlt.trans_le hmm]
  rw [Mem.realQuota, show (t.pmemInit mm).numPages = pageCount mm from rfl, hsplit,
    List.countP_append, hkernel, Nat.zero_add]

def staticTable : AllocTable := ⟨0, fun _ => 0, fun _ => 0, 262144⟩

def twoPages : List MemRange := [⟨0x40000000, 0x2000, 1⟩]

def twoPageBooks : Books := .boot staticTable twoPages

def onePageLeft : Books :=
  ⟨(twoPageBooks.pmm.containerAlloc 0).2, credit twoPageBooks.held 0 262145⟩

theorem twoPageBooks_container : twoPageBooks.pmm.container 0 = ⟨2, 0, 0, 0, true⟩ := by
  have hquota : Mem.realQuota (staticTable.pmemInit twoPages) = 2 := by
    rw [realQuota_pmemInit _ _ (by decide)]
    decide +kernel
  simp [twoPageBooks, Books.boot, Mem.containerInit, hquota]

theorem onePageLeft_run :
    Books.machine.Run Books.Covered twoPageBooks [(.alloc 0, 262145)] onePageLeft := by
  refine .single ⟨trivial, fun id hid => Or.inr ?_⟩ ?_
  · exact ⟨262145, by decide +kernel, by decide +kernel, by decide +kernel⟩
  · have hpage : (twoPageBooks.pmm.containerAlloc 0).1 = 262145 := by
      rw [Mem.containerAlloc, twoPageBooks_container]
      decide +kernel
    have hexec := @exec_alloc twoPageBooks 0 (by decide)
    rw [hpage] at hexec
    exact hexec

theorem accounted_after_one_page : onePageLeft.Accounted ∧ onePageLeft.held 0 = {262145} ∧
      (onePageLeft.pmm.container 0).usage = 1 := by
  refine ⟨(accounted_of_run onePageLeft_run).1, rfl, ?_⟩
  simp [onePageLeft, Mem.containerAlloc, twoPageBooks_container, Mem.setContainer]

/-- The second allocation is within the quota of two pages, but `palloc` only looks behind
page 262145.  It returns 0, and the container is charged for a second page. -/
theorem second_allocation_charged_for_nothing :
    ∃ next, Books.machine.Run Books.Permitted twoPageBooks [(.alloc 0, 262145)] onePageLeft ∧
      Books.exec onePageLeft (.alloc 0) = some (next, 0) ∧
      next.pmm.container ≠ onePageLeft.pmm.container ∧ ¬ next.Accounted := by
  have hcontainer : onePageLeft.pmm.container 0 = ⟨2, 1, 0, 0, true⟩ := by
    simp [onePageLeft, Mem.containerAlloc, twoPageBooks_container, Mem.setContainer]
  have htable : onePageLeft.pmm.table = (staticTable.pmemInit twoPages).palloc.2 := by
    rw [onePageLeft, Mem.containerAlloc, twoPageBooks_container, if_neg (by decide)]
    rfl
  have hscan : onePageLeft.pmm.table.palloc.1 = 0 := by
    rw [htable]
    decide +kernel
  have hfound : ¬ onePageLeft.PageFound 0 := by
    rintro (heq | hfree)
    · rw [hcontainer] at heq
      exact absurd heq (by decide)
    · obtain ⟨i, -, hi, hpos, -⟩ | ⟨hnone, -⟩ := onePageLeft.pmm.table.palloc_cases
      · omega
      · exact hnone hfree
  have hinv := quotaInv_of_run onePageLeft_run
  have hexec := @exec_alloc onePageLeft 0 (by decide)
  obtain ⟨hzero, hchanged, hoff⟩ := hinv.not_accounted hfound hexec
  rw [hzero] at hexec hchanged hoff
  exact ⟨_, onePageLeft_run.weaken fun _ _ h => h.1, hexec, hchanged, hoff⟩

end MCertikos.Pmm
