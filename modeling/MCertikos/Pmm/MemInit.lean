/-
# From the memory map to the allocation table

`pmem_init` reads the memory map through `get_size`, `get_mms`, `get_mml` and `is_usable`, each of
which walks the list of regions again, and classifies every page by 32-bit comparisons.
-/

import MCertikos.Pmm.MemMap
import MCertikos.Pmm.Quota

namespace MCertikos.Pmm

open Math Function

namespace Pmmap

variable (s : Pmmap)

/-! ## The rows of the map -/

/-- The loop that `get_mms`, `get_mml` and `is_usable` share: the slot it stops at, with its
index.  It fails if the list does not end. -/
def seek (idx : ℕ) : ℕ → Option SlotId → ℕ → Option (Option SlotId × ℕ)
  | _, none, i => some (none, i)
  | 0, some _, _ => none
  | fuel + 1, some slot, i =>
    if i = idx then some (some slot, i) else seek idx fuel (s.next slot) (i + 1)

def readRow (field : Region → BitVec 32) (idx : ℕ) : Option (BitVec 32) :=
  (s.seek idx nslots s.list 0).map fun (slot, i) =>
    match slot with
    | some slot => if i = s.nentries then 0 else field (s.region slot)
    | none => 0

def getSize : ℕ := s.nentries

def getMms (idx : ℕ) : Option (BitVec 32) := s.readRow (fun r => r.start) idx

def getMml (idx : ℕ) : Option (BitVec 32) := s.readRow (fun r => r.stop - r.start) idx

def isUsable (idx : ℕ) : Option (BitVec 32) :=
  s.readRow (fun r => if r.type = 1 then 1 else 0) idx

/-! ## `pmem_init` -/

def countLoop : ℕ → ℕ → BitVec 32 → Option (BitVec 32)
  | 0, _, nps => some nps
  | n + 1, i, nps => do
    let start ← s.getMms i
    let len ← s.getMml i
    let maxs := (start + len) / 4096 + 1
    countLoop n (i + 1) (if nps < maxs then maxs else nps)

def classLoop (i : BitVec 32) : ℕ → ℕ → BitVec 32 → Option (Bool × BitVec 32)
  | 0, _, isnorm => some (false, isnorm)
  | n + 1, j, _ => do
    let start ← s.getMms j
    let len ← s.getMml j
    let isnorm ← s.isUsable j
    if start ≤ i * 4096 ∧ (i + 1) * 4096 ≤ len + start then some (true, isnorm)
    else classLoop i n (j + 1) isnorm

end Pmmap

def AllocTable.atSetPerm (t : AllocTable) (i perm : ℕ) : AllocTable :=
  { t with perm := update t.perm i perm, allocated := update t.allocated i 0 }

namespace Pmmap

variable (s : Pmmap)

def normPerm : Bool × BitVec 32 → ℕ
  | (flag, isnorm) => if flag = true ∧ isnorm = 1 then 2 else 0

def permLoop : ℕ → ℕ → AllocTable → Option AllocTable
  | 0, _, t => some t
  | n + 1, i, t =>
    if i < vmUserloPi ∨ vmUserhiPi ≤ i then permLoop n (i + 1) (t.atSetPerm i 1)
    else do
      let found ← s.classLoop (BitVec.ofNat 32 i) s.getSize 0 0
      permLoop n (i + 1) (t.atSetPerm i (normPerm found))

def pmemInit (t : AllocTable) : Option AllocTable := do
  let nps ← s.countLoop s.getSize 0 0
  s.permLoop nps.toNat 0 { t with numPages := nps.toNat }

end Pmmap

def Region.row (r : Region) : MemRange where
  start := r.start
  len := r.stop - r.start
  usable := if r.type = 1 then 1 else 0

def Pmmap.rows (s : Pmmap) : List MemRange :=
  (Spells.walk s.next nslots s.list).map fun slot => (s.region slot).row

/-! ## What holds of the list whatever map was accepted -/

namespace Pmmap

variable {s s' : Pmmap} {xs : List SlotId} {es : List MbootMmap}

theorem insertAll_room (h : s.Listed xs) (hle : s.nextFree ≤ nslots)
    (hall : s.insertAll es = some s') : s.nextFree + (below4G es).length ≤ nslots := by
  induction es generalizing s xs with
  | nil => exact hle
  | cons e es ih =>
    unfold below4G at ih ⊢
    rw [insertAll] at hall
    by_cases hhigh : e.baseAddrHigh = 0
    · rw [if_neg (not_not_intro hhigh)] at hall
      have hfree : s.nextFree < nslots := by
        by_contra hfull
        rw [pmmapInsert, dif_neg hfull] at hall
        cases hall
      obtain ⟨s₁, ys, hinsert, hlisted, -, hnext, -⟩ := pmmapInsert_spec (r := e.region) h hfree
      rw [hinsert, Option.bind_some] at hall
      have hroom := ih hlisted (by omega) hall
      rw [List.filter_cons_of_pos (by simpa using hhigh), List.length_cons]
      omega
    · rw [if_pos hhigh] at hall
      rw [List.filter_cons_of_neg (by simpa using hhigh)]
      exact ih h hle hall

theorem sublistLoop_fields {last last' : PmmapType → Option SlotId} {fuel : ℕ}
    {p : Option SlotId} (h : s.sublistLoop last fuel p = some (s', last')) :
    s'.region = s.region ∧ s'.next = s.next ∧ s'.list = s.list := by
  induction fuel generalizing s last p with
  | zero =>
    cases p with
    | none =>
      cases h
      exact ⟨rfl, rfl, rfl⟩
    | some slot => cases h
  | succ fuel ih =>
    cases p with
    | none =>
      cases h
      exact ⟨rfl, rfl, rfl⟩
    | some slot =>
      rw [sublistLoop] at h
      split at h
      · cases h
      · next type htype =>
        obtain ⟨hregion, hnext, hlist⟩ := ih h
        obtain ⟨hregion', hnext', hlist'⟩ := linkType_fields (s := s) type slot (last type)
        exact ⟨hregion.trans hregion', hnext.trans hnext', hlist.trans hlist'⟩

theorem setMaxUsable_fields (p : Option SlotId) :
    (s.setMaxUsable p).region = s.region ∧ (s.setMaxUsable p).next = s.next ∧
      (s.setMaxUsable p).list = s.list := by
  cases p <;> exact ⟨rfl, rfl, rfl⟩

theorem pmmapMerge_inv (h : Spells s.next s.list xs) (hmerge : s.pmmapMerge = some s') :
    ∃ ys, Spells s'.next s'.list ys ∧ ys.map s'.region = mergeOnce (xs.map s.region) := by
  obtain ⟨region, next, ys, hstep, hspells, -, hmap, -⟩ :=
    mergeLoop_spec h (by simpa using h.length_le)
  rw [pmmapMerge, mergeStep, hstep, Option.bind_some, sublistStep, Option.map_eq_some_iff] at hmerge
  obtain ⟨⟨s₂, last⟩, hloop, rfl⟩ := hmerge
  obtain ⟨hregion, hnext, hlist⟩ := sublistLoop_fields hloop
  obtain ⟨hregion', hnext', hlist'⟩ := s₂.setMaxUsable_fields (last .usable)
  refine ⟨ys, ?_, ?_⟩
  · rw [hnext', hlist', hnext, hlist]
    exact hspells
  · rw [hregion', hregion]
    exact hmap

structure Counted (s : Pmmap) (xs : List SlotId) : Prop where
  chain : Spells s.next s.list xs
  nentries : s.nentries = xs.length

structure Accepted (es : List MbootMmap) (s : Pmmap) (xs : List SlotId) : Prop
    extends Counted s xs where
  regions : xs.map s.region = mergeOnce (collect [] es)

theorem pmmapInit_inv (h : pmmapInit es = some s) : ∃ xs, Accepted es s xs := by
  rw [pmmapInit, Option.map_eq_some_iff] at h
  obtain ⟨s₂, hbind, rfl⟩ := h
  obtain ⟨s₁, hall, hmerge⟩ := Option.bind_eq_some_iff.mp hbind
  have hempty : empty.Listed [] := ⟨rfl, by simp⟩
  have hroom := insertAll_room hempty (Nat.zero_le _) hall
  obtain ⟨s₁', ys, hall', hlisted, hmap, -⟩ := insertAll_spec hempty hroom
  obtain rfl : s₁ = s₁' := Option.some.inj (hall.symm.trans hall')
  obtain ⟨xs, hchain, hregions⟩ := pmmapMerge_inv hlisted.chain hmerge
  refine ⟨xs, ⟨hchain, ?_⟩, hregions.trans (by rw [hmap]; rfl)⟩
  exact congrArg List.length (hchain.walk_eq (by simpa using hchain.length_le))

end Pmmap

/-! ## The loops compute the table -/

namespace Pmmap

variable {s : Pmmap} {xs : List SlotId}

theorem seek_eq {idx fuel i : ℕ} {p : Option SlotId} {slot : SlotId} (h : Spells s.next p xs)
    (hfuel : xs.length ≤ fuel) (hslot : xs[idx]? = some slot) :
    s.seek (i + idx) fuel p i = some (some slot, i + idx) := by
  induction xs generalizing p fuel i idx with
  | nil => cases hslot
  | cons x xs ih =>
    obtain ⟨rfl, hrest⟩ := h
    cases fuel with
    | zero => cases hfuel
    | succ fuel =>
      rw [seek]
      cases idx with
      | zero =>
        cases hslot
        rw [Nat.add_zero, if_pos rfl]
      | succ idx =>
        rw [if_neg (by omega)]
        have hseek := ih (i := i + 1) hrest (by simpa using hfuel) hslot
        rwa [show i + 1 + idx = i + (idx + 1) by omega] at hseek

namespace Counted

variable (h : s.Counted xs)
include h

theorem length_le : xs.length ≤ nslots := by simpa using h.chain.length_le

theorem rows_eq : s.rows = xs.map fun slot => (s.region slot).row := by
  rw [rows, h.chain.walk_eq h.length_le]

theorem getSize_eq : s.getSize = s.rows.length := by
  rw [h.rows_eq, List.length_map]
  exact h.nentries

theorem readRow_eq {field : Region → BitVec 32} {idx : ℕ} {slot : SlotId}
    (hslot : xs[idx]? = some slot) : s.readRow field idx = some (field (s.region slot)) := by
  have hlt : idx < xs.length := (List.getElem?_eq_some_iff.mp hslot).1
  have hseek := seek_eq (i := 0) h.chain h.length_le hslot
  rw [Nat.zero_add] at hseek
  rw [readRow, hseek, Option.map_some]
  dsimp only
  rw [if_neg (by rw [h.nentries]; omega)]

theorem getters {idx : ℕ} {row : MemRange} (hrow : s.rows[idx]? = some row) :
    s.getMms idx = some row.start ∧ s.getMml idx = some row.len ∧
      s.isUsable idx = some row.usable := by
  rw [h.rows_eq, List.getElem?_map, Option.map_eq_some_iff] at hrow
  obtain ⟨slot, hslot, rfl⟩ := hrow
  exact ⟨h.readRow_eq hslot, h.readRow_eq hslot, h.readRow_eq hslot⟩

theorem countLoop_eq (done rest : List MemRange) (nps : BitVec 32) (hrows : s.rows = done ++ rest) :
    ∃ nps', s.countLoop rest.length done.length nps = some nps' ∧
      nps'.toNat = rest.foldl (fun nps row =>
        let maxs := (row.start + row.len).toNat / pagesize + 1
        if nps < maxs then maxs else nps) nps.toNat := by
  induction rest generalizing done nps with
  | nil => exact ⟨nps, rfl, rfl⟩
  | cons row rest ih =>
    have hrow : s.rows[done.length]? = some row := by simp [hrows]
    obtain ⟨hstart, hlen, -⟩ := h.getters hrow
    have hmaxs : ((row.start + row.len) / 4096 + 1).toNat =
        (row.start + row.len).toNat / pagesize + 1 := by
      have hlt := (row.start + row.len).isLt
      have hsize : (4096 : BitVec 32).toNat = pagesize := rfl
      have hone : (1 : BitVec 32).toNat = 1 := rfl
      rw [BitVec.toNat_add, BitVec.toNat_udiv, hsize, hone]
      unfold pagesize
      omega
    obtain ⟨nps', hloop, hnps⟩ := ih (done ++ [row])
      (if nps < (row.start + row.len) / 4096 + 1 then (row.start + row.len) / 4096 + 1 else nps)
      (by simpa using hrows)
    refine ⟨nps', ?_, ?_⟩
    · rw [List.length_append] at hloop
      rw [List.length_cons, countLoop, hstart, hlen]
      exact hloop
    · rw [hnps, List.foldl_cons, ← hmaxs]
      congr 1
      simp only [BitVec.lt_def]
      split <;> rfl

end Counted

def rowPerm : Option MemRange → ℕ
  | some row => if row.usable = 1 then 2 else 0
  | none => 0

theorem pagePerm_eq_rowPerm {mm : List MemRange} {i : ℕ}
    (hi : ¬ (i < vmUserloPi ∨ vmUserhiPi ≤ i)) :
    pagePerm mm i = rowPerm (mm.find? fun row => row.Covers i) := by
  rw [pagePerm, if_neg hi]
  cases mm.find? fun row => row.Covers i <;> rfl

theorem ofNat_mul_pagesize (i : ℕ) : BitVec.ofNat 32 i * 4096 = BitVec.ofNat 32 (i * pagesize) ∧
      (BitVec.ofNat 32 i + 1) * 4096 = BitVec.ofNat 32 ((i + 1) * pagesize) := by
  rw [BitVec.ofNat_mul, BitVec.ofNat_mul, BitVec.ofNat_add]
  exact ⟨rfl, rfl⟩

theorem Counted.classLoop_eq (h : s.Counted xs) (done rest : List MemRange) (i : ℕ)
    (isnorm : BitVec 32) (hrows : s.rows = done ++ rest) :
    (s.classLoop (BitVec.ofNat 32 i) rest.length done.length isnorm).map normPerm =
      some (rowPerm (rest.find? fun row => row.Covers i)) := by
  induction rest generalizing done isnorm with
  | nil => rfl
  | cons row rest ih =>
    have hrow : s.rows[done.length]? = some row := by simp [hrows]
    obtain ⟨hstart, hlen, husable⟩ := h.getters hrow
    obtain ⟨hlow, hhigh⟩ := ofNat_mul_pagesize i
    have hrest := ih (done ++ [row]) row.usable (by simpa using hrows)
    rw [List.length_append] at hrest
    rw [List.length_cons, classLoop, hstart, hlen, husable, hlow, hhigh]
    simp only [Option.bind_eq_bind, Option.bind_some]
    by_cases hcovers : row.Covers i
    · rw [List.find?_cons_of_pos (by simpa using hcovers)]
      unfold MemRange.Covers at hcovers
      rw [if_pos hcovers, Option.map_some, normPerm, rowPerm]
      simp only [true_and]
    · rw [List.find?_cons_of_neg (by simpa using hcovers)]
      unfold MemRange.Covers at hcovers
      rw [if_neg hcovers]
      exact hrest

end Pmmap

namespace AllocTable

def marked (t : AllocTable) (lo hi : ℕ) (perm : ℕ → ℕ) : AllocTable :=
  { t with
    perm := fun i => if lo ≤ i ∧ i < hi then perm i else t.perm i
    allocated := fun i => if lo ≤ i ∧ i < hi then 0 else t.allocated i }

theorem marked_self (t : AllocTable) (lo : ℕ) (perm : ℕ → ℕ) : t.marked lo lo perm = t := by
  have hnone : ∀ i, ¬ (lo ≤ i ∧ i < lo) := by omega
  simp only [marked, hnone, if_false]

theorem marked_atSetPerm (t : AllocTable) {lo hi : ℕ} (hlt : lo < hi) (perm : ℕ → ℕ) :
    (t.atSetPerm lo (perm lo)).marked (lo + 1) hi perm = t.marked lo hi perm := by
  have hupdate : ∀ (f : ℕ → ℕ) (g : ℕ → ℕ),
      (fun i => if lo + 1 ≤ i ∧ i < hi then g i else update f lo (g lo) i) =
        fun i => if lo ≤ i ∧ i < hi then g i else f i := by
    intro f g
    funext i
    by_cases hi : i = lo
    · subst hi
      rw [if_neg (by omega), if_pos (by omega), update_self]
    · rw [update_of_ne hi]
      exact if_congr (by omega) rfl rfl
  unfold marked atSetPerm
  rw [hupdate t.perm perm, hupdate t.allocated fun _ => 0]

end AllocTable

namespace Pmmap

variable {s : Pmmap} {xs : List SlotId} (h : s.Counted xs)
include h

theorem Counted.permLoop_eq (n i : ℕ) (t : AllocTable) :
    s.permLoop n i t = some (t.marked i (i + n) (pagePerm s.rows)) := by
  induction n generalizing i t with
  | zero => rw [permLoop, Nat.add_zero, AllocTable.marked_self]
  | succ n ih =>
    have hmarked := t.marked_atSetPerm (show i < i + (n + 1) by omega) (pagePerm s.rows)
    rw [show i + (n + 1) = i + 1 + n by omega] at hmarked ⊢
    rw [permLoop]
    split
    · next hkernel =>
      rw [ih, ← hmarked, pagePerm, if_pos hkernel]
    · next huser =>
      have hclass := h.classLoop_eq [] s.rows i 0 rfl
      rw [← h.getSize_eq, Option.map_eq_some_iff] at hclass
      obtain ⟨found, hfound, hperm⟩ := hclass
      rw [List.length_nil] at hfound
      rw [hfound, Option.bind_eq_bind, Option.bind_some, ih, ← hmarked, hperm,
        pagePerm_eq_rowPerm huser]

theorem Counted.pmemInit_eq (t : AllocTable) : s.pmemInit t = some (t.pmemInit s.rows) := by
  obtain ⟨nps, hcount, hnps⟩ := h.countLoop_eq [] s.rows 0 rfl
  rw [← h.getSize_eq, List.length_nil] at hcount
  have hpages : nps.toNat = pageCount s.rows := hnps
  rw [pmemInit, hcount, Option.bind_eq_bind, Option.bind_some, h.permLoop_eq, hpages]
  simp only [AllocTable.marked, AllocTable.pmemInit, Nat.zero_le, true_and, Nat.zero_add]

end Pmmap

/-! ## What the table says -/

structure Region.Sums (r : Region) : Prop where
  reach : (r.start + (r.stop - r.start)).toNat = r.start.toNat + (r.stop - r.start).toNat
  pages : ((r.start + (r.stop - r.start)) / 4096 + 1).toNat =
    (r.start.toNat + (r.stop - r.start).toNat) / 4096 + 1

structure Products (i : ℕ) : Prop where
  low : (BitVec.ofNat 32 i * 4096).toNat = i * 4096
  high : ((BitVec.ofNat 32 i + 1) * 4096).toNat = (i + 1) * 4096

/-- All of page `i` lies in the region. -/
def Region.Contains (r : Region) (i : ℕ) : Prop :=
  r.start.toNat ≤ i * 4096 ∧ (i + 1) * 4096 ≤ r.stop.toNat

instance (r : Region) (i : ℕ) : Decidable (r.Contains i) := inferInstanceAs (Decidable (_ ∧ _))

/-- The region that decides on page `i`: the first one in the merged list that contains it. -/
def deciding (es : List MbootMmap) (i : ℕ) : Option Region :=
  (mergeOnce (Pmmap.collect [] es)).find? fun r => r.Contains i

section Arithmetic

variable {r : Region} {i : ℕ}

theorem Region.toNat_len (h : r.start ≤ r.stop) :
    (r.stop - r.start).toNat = r.stop.toNat - r.start.toNat :=
  BitVec.toNat_sub_of_le h

theorem Region.start_add_len (h : r.start ≤ r.stop) :
    (r.start + (r.stop - r.start)).toNat = r.stop.toNat := by
  have hle := BitVec.le_def.mp h
  have hlt := r.stop.isLt
  rw [BitVec.toNat_add, Region.toNat_len h]
  omega

theorem Region.sums (h : r.start ≤ r.stop) : r.Sums := by
  have hle := BitVec.le_def.mp h
  have hlt := r.stop.isLt
  have hsum : r.start.toNat + (r.stop - r.start).toNat = r.stop.toNat := by
    rw [Region.toNat_len h]
    omega
  have hsize : (4096 : BitVec 32).toNat = 4096 := rfl
  have hone : (1 : BitVec 32).toNat = 1 := rfl
  refine ⟨(Region.start_add_len h).trans hsum.symm, ?_⟩
  rw [BitVec.toNat_add, BitVec.toNat_udiv, Region.start_add_len h, hsum, hsize, hone]
  omega

theorem products (hi : i < vmUserhiPi) : Products i := by
  obtain ⟨hlow, hhigh⟩ := Pmmap.ofNat_mul_pagesize i
  unfold vmUserhiPi at hi
  refine ⟨?_, ?_⟩
  · rw [hlow, BitVec.toNat_ofNat]
    unfold pagesize
    omega
  · rw [hhigh, BitVec.toNat_ofNat]
    unfold pagesize
    omega

theorem Region.row_covers_iff (h : r.start ≤ r.stop) (hi : i < vmUserhiPi) :
    r.row.Covers i ↔ r.Contains i := by
  obtain ⟨hlow, hhigh⟩ := products hi
  obtain ⟨hlow', hhigh'⟩ := Pmmap.ofNat_mul_pagesize i
  rw [hlow'] at hlow
  rw [hhigh'] at hhigh
  have hsum := Region.start_add_len h
  rw [BitVec.add_comm] at hsum
  unfold MemRange.Covers Region.Contains Region.row
  rw [BitVec.le_def, BitVec.le_def, hlow, hhigh, hsum]

end Arithmetic

theorem start_le_of_mem_mergeOnce {rs : List Region} (h : ∀ r ∈ rs, r.start ≤ r.stop) :
    ∀ r ∈ mergeOnce rs, r.start ≤ r.stop := by
  induction rs using mergeOnce.induct with
  | case1 r r' rs hjoins ih =>
    have hjoin : (r.join r').start ≤ (r.join r').stop := by
      have hstart : r.start ≤ r.stop := h r List.mem_cons_self
      unfold Region.join
      dsimp only
      split
      · exact hstart
      · next hle => exact BitVec.le_trans hstart (BitVec.not_lt.mp hle)
    rw [mergeOnce, if_pos hjoins]
    intro x hx
    obtain rfl | hx := List.mem_cons.mp hx
    · exact hjoin
    · exact ih (fun y hy => h y (by simp [hy])) x hx
  | case2 r r' rs hjoins ih =>
    rw [mergeOnce, if_neg hjoins]
    intro x hx
    obtain rfl | hx := List.mem_cons.mp hx
    · exact h x List.mem_cons_self
    · exact ih (fun y hy => h y (List.mem_cons_of_mem r hy)) x hx
  | case3 rs hshort =>
    rw [mergeOnce]
    · exact h
    · exact hshort

namespace Pmmap.Accepted

variable {es : List MbootMmap} {s : Pmmap} {xs : List SlotId} (h : Accepted es s xs)
include h

theorem start_le {slot : SlotId} (hslot : slot ∈ xs) :
    (s.region slot).start ≤ (s.region slot).stop := by
  have hmem : s.region slot ∈ mergeOnce (collect [] es) := by
    rw [← h.regions]
    exact List.mem_map_of_mem hslot
  refine start_le_of_mem_mergeOnce (fun r hr => ?_) _ hmem
  obtain hr | ⟨e, -, -, rfl⟩ := mem_collect.mp hr
  · cases hr
  · exact MbootMmap.region_start_le

theorem find?_rows {i : ℕ} (hi : i < vmUserhiPi) :
    (s.rows.find? fun row => row.Covers i) = (deciding es i).map Region.row := by
  have hrows : s.rows = (mergeOnce (collect [] es)).map Region.row := by
    rw [h.rows_eq, ← h.regions, List.map_map]
    rfl
  have hle : ∀ r ∈ mergeOnce (collect [] es), r.start ≤ r.stop := by
    intro r hr
    rw [← h.regions] at hr
    obtain ⟨slot, hslot, rfl⟩ := List.mem_map.mp hr
    exact h.start_le hslot
  rw [hrows, List.find?_map, deciding, ← List.head?_filter, ← List.head?_filter]
  congr 2
  refine List.filter_congr fun r hr => ?_
  simpa using Region.row_covers_iff (hle r hr) hi

/-- **The pages that `pmem_init` marks as normal** are those of the user window whose deciding
region is usable. -/
theorem pagePerm_eq_two_iff {i : ℕ} : pagePerm s.rows i = 2 ↔
    vmUserloPi ≤ i ∧ i < vmUserhiPi ∧ ∃ r ∈ deciding es i, r.type = 1 := by
  by_cases huser : i < vmUserloPi ∨ vmUserhiPi ≤ i
  · rw [pagePerm, if_pos huser]
    exact iff_of_false (by decide) (by omega)
  · have hwindow : vmUserloPi ≤ i ∧ i < vmUserhiPi := by omega
    rw [pagePerm_eq_rowPerm huser, h.find?_rows hwindow.2]
    cases deciding es i with
    | none => simp [rowPerm]
    | some r =>
      by_cases htype : r.type = 1 <;>
        simp [rowPerm, Region.row, htype, hwindow.1, hwindow.2]

theorem contains_of_pagePerm {i : ℕ} (hperm : pagePerm s.rows i = 2) :
    ∃ slot ∈ xs, (s.region slot).type = 1 ∧ (s.region slot).Contains i := by
  obtain ⟨-, -, r, hr, htype⟩ := h.pagePerm_eq_two_iff.mp hperm
  have hmem := List.mem_of_find?_eq_some hr
  rw [← h.regions] at hmem
  obtain ⟨slot, hslot, rfl⟩ := List.mem_map.mp hmem
  exact ⟨slot, hslot, htype, by simpa using List.find?_some hr⟩

end Pmmap.Accepted

namespace AllocTable

variable {t : AllocTable} {mm : List MemRange}

theorem perm_pmemInit {i : ℕ} (hi : i < (t.pmemInit mm).numPages) :
    (t.pmemInit mm).perm i = pagePerm mm i := if_pos hi

theorem allocated_pmemInit {i : ℕ} (hi : i < (t.pmemInit mm).numPages) :
    (t.pmemInit mm).allocated i = 0 := if_pos hi

theorem rowPerm_cases (row : Option MemRange) : Pmmap.rowPerm row = 0 ∨ Pmmap.rowPerm row = 2 := by
  cases row with
  | none => exact .inl rfl
  | some row =>
    rw [Pmmap.rowPerm]
    split
    · exact .inr rfl
    · exact .inl rfl

theorem pagePerm_le (mm : List MemRange) (i : ℕ) : pagePerm mm i ≤ 2 := by
  by_cases hi : i < vmUserloPi ∨ vmUserhiPi ≤ i
  · rw [pagePerm, if_pos hi]
    decide
  · rw [Pmmap.pagePerm_eq_rowPerm hi]
    have hcases := rowPerm_cases (mm.find? fun row => row.Covers i)
    omega

theorem free_pmemInit_iff {i : ℕ} (hi : i < (t.pmemInit mm).numPages) :
    (t.pmemInit mm).Free i ↔ (t.pmemInit mm).perm i = 2 := by
  have hle := pagePerm_le mm i
  rw [Free, atIsNorm, atIsAllocated, allocated_pmemInit hi, perm_pmemInit hi]
  simp only [Bool.and_eq_true, bne_iff_ne, ne_eq, bne_self_eq_false, and_true]
  omega

theorem realQuota_eq : Mem.realQuota (t.pmemInit mm) =
    (List.range (t.pmemInit mm).numPages).countP fun i => (t.pmemInit mm).perm i = 2 := by
  unfold Mem.realQuota
  cases hpages : (t.pmemInit mm).numPages with
  | zero => rfl
  | succ n =>
    have hzero : (t.pmemInit mm).perm 0 = 1 := by
      rw [perm_pmemInit (by omega), pagePerm, if_pos (by decide)]
    rw [List.range_eq_range', List.range'_succ, List.countP_cons_of_neg (by simp [hzero])]
    refine List.countP_congr fun i hi => ?_
    have hlt : i < (t.pmemInit mm).numPages := by
      have hmem := List.mem_range'_1.mp hi
      omega
    simpa using free_pmemInit_iff hlt

end AllocTable

/-- **`pmem_init` marks pages safely.** For every map that `pmmap_init` accepts, there are at
most 2²⁰ pages, no sum and no product wraps, a page outside of the user's window gets permission
1 and any other page 0 or 2, all are unallocated, and a page gets permission 2 only if one
usable region contains all of it.  The quota of the root is the number of pages with permission
2. -/
theorem pmem_init_marks_safely {es : List MbootMmap} {s : Pmmap}
    (h : Pmmap.pmmapInit es = some s) (t : AllocTable) :
    ∃ xs t', Spells s.next s.list xs ∧ s.pmemInit t = some t' ∧ t'.numPages ≤ 2 ^ 20 ∧
      (∀ slot ∈ xs, (s.region slot).Sums) ∧ (∀ i < vmUserhiPi, Products i) ∧
      (∀ i < t'.numPages, t'.allocated i = 0 ∧
        (i < vmUserloPi ∨ vmUserhiPi ≤ i → t'.perm i = 1) ∧
        (vmUserloPi ≤ i ∧ i < vmUserhiPi → t'.perm i = 0 ∨ t'.perm i = 2) ∧
        (t'.perm i = 2 → ∃ slot ∈ xs, (s.region slot).type = 1 ∧ (s.region slot).Contains i)) ∧
      (Mem.containerInit t s.rows).table = t' ∧
      ((Mem.containerInit t s.rows).container 0).quota.toNat =
        (List.range t'.numPages).countP fun i => t'.perm i = 2 := by
  obtain ⟨xs, haccepted⟩ := Pmmap.pmmapInit_inv h
  refine ⟨xs, _, haccepted.chain, haccepted.pmemInit_eq t, pageCount_le _, fun slot hslot =>
    Region.sums (haccepted.start_le hslot), fun i hi => products hi, fun i hi => ?_, rfl, ?_⟩
  · rw [AllocTable.perm_pmemInit hi]
    refine ⟨AllocTable.allocated_pmemInit hi, fun hkernel => if_pos hkernel, fun huser => ?_,
      haccepted.contains_of_pagePerm⟩
    rw [Pmmap.pagePerm_eq_rowPerm (by omega)]
    exact AllocTable.rowPerm_cases _
  · rw [← AllocTable.realQuota_eq]
    have hle := (realQuota_le (t.pmemInit s.rows)).trans (pageCount_le s.rows)
    exact Nat.mod_eq_of_lt (by omega)

theorem pmem_init_marks_safely_of_three :
    ∃ s t', Pmmap.pmmapInit [⟨0x40002000, 0, 0x1000, 0, 1⟩, ⟨0x40000000, 0, 0x2000, 0, 1⟩,
        ⟨0x40003000, 0, 0x800, 0, 2⟩] = some s ∧ s.pmemInit staticTable = some t' ∧
      t'.numPages ≤ 2 ^ 20 ∧ ∀ i < t'.numPages, t'.allocated i = 0 := by
  have hdigestible : Digestible [⟨0x40002000, 0, 0x1000, 0, 1⟩, ⟨0x40000000, 0, 0x2000, 0, 1⟩,
      ⟨0x40003000, 0, 0x800, 0, 2⟩] := ⟨by decide, by decide⟩
  obtain ⟨s, xs, hinit, -⟩ := Pmmap.pmmapInit_spec hdigestible
  obtain ⟨_, t', -, hpmem, hpages, -, -, hmarks, -⟩ := pmem_init_marks_safely hinit staticTable
  exact ⟨s, t', hinit, hpmem, hpages, fun i hi => (hmarks i hi).1⟩

end MCertikos.Pmm
