/-
# The block map of an inode

`bmap` allocates in three places: for a direct address, for the indirect block and for an address
of the indirect block.
-/

import MCertikos.FS.FileMap

namespace MCertikos.FS

open Math Function

def Inode.setAddrs (ip : Inode) (addrs : Fin (ndirect + 1) → Sector) : Inode :=
  { ip with addrs := addrs }

def Inode.SameSlot (ip ip' : Inode) : Prop := ip' = { ip with toDinode := ip'.toDinode }

theorem Inode.sameSlot_of_setAddrs {ip ip' : Inode} (h : ip' = ip.setAddrs ip'.addrs) :
    ip.SameSlot ip' := by
  rw [SameSlot, h]
  rfl

theorem Inode.setAddrs_trans {ip₁ ip₂ ip₃ : Inode} (h : ip₂ = ip₁.setAddrs ip₂.addrs)
    (h' : ip₃ = ip₂.setAddrs ip₃.addrs) : ip₃ = ip₁.setAddrs ip₃.addrs := by
  rw [h', h]
  rfl

section Filling

variable {g : Geometry} {s s' : Fs} {ip ip' : Inode} {owner : ℕ × ℕ → Option ℕ}
  {i p : ℕ} {addr : Sector} {charge : Charge}

/-- Position `p` holds `addr`.  If it was empty, `addr` is a block that was free and is zero, and
if not, nothing has changed. -/
structure Filled (g : Geometry) (i : ℕ) (owner : ℕ × ℕ → Option ℕ) (s : Fs) (ip : Inode)
    (p : ℕ) (addr : Sector) (ip' : Inode) (s' : Fs) : Prop where
  accounted : Accounted g (withFile i owner (ip'.refs s'.cache)) s'
  blockAt_eq : ip'.blockAt s'.cache = update (ip.blockAt s.cache) p addr
  ne_zero : addr ≠ 0
  same : ip.blockAt s.cache p ≠ 0 → ip' = ip ∧ s' = s
  zero : ip.blockAt s.cache p = 0 → s'.cache addr = fun _ => 0
  free : (freeBlocks g s').card + (if ip.blockAt s.cache p = 0 then 1 else 0) =
    (freeBlocks g s).card
  fields : ip' = ip.setAddrs ip'.addrs
  busy_eq : s'.log.busy = s.log.busy
  frame : ∀ sector, Plain g sector → sector ≠ addr → sector ≠ ip'.addr ndirect →
    s'.cache sector = s.cache sector
  new : ip.blockAt s.cache p = 0 → addr ∈ allocSectors g s 1
  alloc : ip.blockAt s.cache p = 0 → ∀ k, allocSectors g s' k ⊆ allocSectors g s (k + 1)
  sectors : ip.blockAt s.cache p = 0 → s'.log.sectors ⊆ s.log.sectors ∪ allocSectors g s 1 ∪
    if ndirect ≤ p ∧ p < maxfile then {ip.addr ndirect} else ∅

variable {d : Dinode}

theorem Accounted.exists_block (h : Accounted g (withFile i owner (d.refs s.cache)) s)
    (hp : d.blockAt s.cache p ≠ 0) :
    ∃ b, d.blockAt s.cache p = BitVec.ofNat 32 b ∧ d.refs s.cache p = some b ∧
      g.DataUsed s b := by
  obtain ⟨b, hb⟩ := Option.ne_none_iff_exists'.mp (blockNumber_eq_none.not.mpr hp)
  exact ⟨b, blockNumber_eq_some hb, hb, h.dataUsed hb⟩

theorem Accounted.indirect (h : Accounted g (withFile i owner (d.refs s.cache)) s)
    (hind : d.addr ndirect ≠ 0) : ∃ b, d.addr ndirect = BitVec.ofNat 32 b ∧ g.DataUsed s b := by
  rw [← Dinode.blockAt_maxfile d s.cache] at hind
  obtain ⟨b, hb, -, hused⟩ := h.exists_block hind
  rw [Dinode.blockAt_maxfile] at hb
  exact ⟨b, hb, hused⟩

variable {b : ℕ}

theorem Allocated.cache_of_plain (h : Allocated g s b s') {sector : Sector}
    (hplain : Plain g sector) (hne : sector ≠ BitVec.ofNat 32 b) :
    s'.cache sector = s.cache sector :=
  h.frame sector hplain.not_contains (hplain.ne_bitmap b h.inData.lt_size).symm hne

theorem Allocated.ne_of_used {b c : ℕ} (h : Allocated g s b s') (hc : g.DataUsed s c) :
    BitVec.ofNat 32 c ≠ BitVec.ofNat 32 b := by
  have hb := h.inData.lt_size
  have hlt := hc.1.lt_size
  have hsize := g.size_lt
  intro heq
  obtain rfl := Geometry.ofNat_inj (by omega) (by omega) heq
  exact absurd (h.fresh.symm.trans hc.2) (by decide)

theorem Allocated.cache_indirect (hb : Allocated g s b s')
    (h : Accounted g (withFile i owner (d.refs s.cache)) s) (hind : d.addr ndirect ≠ 0) :
    s'.cache (d.addr ndirect) = s.cache (d.addr ndirect) := by
  obtain ⟨c, hc, hused⟩ := h.indirect hind
  rw [hc]
  exact hb.cache_of_plain hused.1.plain (hb.ne_of_used hused)

theorem Filled.of_ne_zero (h : Accounted g (withFile i owner (ip.refs s.cache)) s)
    (hp : ip.blockAt s.cache p ≠ 0) : Filled g i owner s ip p (ip.blockAt s.cache p) ip s where
  accounted := h
  blockAt_eq := (update_eq_self p _).symm
  ne_zero := hp
  same _ := ⟨rfl, rfl⟩
  zero hzero := absurd hzero hp
  free := by rw [if_neg hp, Nat.add_zero]
  fields := rfl
  busy_eq := rfl
  frame _ _ _ _ := rfl
  new hzero := absurd hzero hp
  alloc hzero := absurd hzero hp
  sectors hzero := absurd hzero hp

theorem Allocated.sectors_subset (hb : Allocated g s b s') (hnext : g.NextFree s b) :
    s'.log.sectors ⊆ s.log.sectors ∪ allocSectors g s 1 := by
  obtain ⟨hblock, hbit⟩ := hnext.mem_allocSectors
  rw [hb.sectors_eq, Finset.insert_subset_iff, Finset.insert_subset_iff]
  exact ⟨Finset.mem_union_right _ hblock, Finset.mem_union_right _ hbit,
    Finset.subset_union_left⟩

theorem Filled.of_allocated (h : Accounted g (withFile i owner (ip.refs s.cache)) s)
    (hb : Allocated g s b s') (hnext : g.NextFree s b) (hp : ip.blockAt s.cache p = 0)
    (hblockAt : ip'.blockAt s'.cache = update (ip.blockAt s.cache) p (BitVec.ofNat 32 b))
    (hfields : ip' = ip.setAddrs ip'.addrs) :
    Filled g i owner s ip p (BitVec.ofNat 32 b) ip' s'  where
  accounted := by
    rw [Dinode.refs_update hblockAt, hb.inData.blockNumber_ofNat]
    exact h.attach hb (blockNumber_eq_none.mpr hp)
  blockAt_eq := hblockAt
  ne_zero := hb.inData.ofNat_ne_zero
  same hne := absurd hp hne
  zero _ := hb.zero
  free := by rw [if_pos hp, hb.card_freeBlocks]
  fields := hfields
  busy_eq := hb.busy_eq
  frame _ hplain hne _ := hb.cache_of_plain hplain hne
  new _ := hnext.mem_allocSectors.1
  alloc _ := hb.allocSectors_subset
  sectors _ := (hb.sectors_subset hnext).trans Finset.subset_union_left

/-- The log and the buffers, as far as the allocation of `k` blocks asks for them while
`sectors` are logged or in use. -/
structure Charge.Takes (charge : Charge) (g : Geometry) (s : Fs) (sectors : Finset Sector)
    (k : ℕ) : Prop where
  log : (s.log.sectors ∪ sectors ∪ allocSectors g s k).card ≤ charge.log
  buffers : (s.log.sectors ∪ sectors ∪ allocSectors g s k).card ≤ charge.buffers

theorem Charge.Takes.allocates {sectors : Finset Sector} {held : List Sector}
    (h : charge.Takes g s sectors 1) (hnext : g.NextFree s b) (hheld : held.toFinset ⊆ sectors) :
    charge.Allocates g s.log.sectors held b := by
  obtain ⟨hblock, hbit⟩ := hnext.mem_allocSectors
  have hbit := Finset.mem_union_right (s.log.sectors ∪ sectors) hbit
  have hblock := Finset.mem_union_right (s.log.sectors ∪ sectors) hblock
  have hlogged : s.log.sectors ⊆ s.log.sectors ∪ sectors ∪ allocSectors g s 1 :=
    Finset.subset_union_left.trans Finset.subset_union_left
  have hinsert := Finset.insert_subset hbit hlogged
  refine ⟨(Finset.card_le_card hinsert).trans h.log, (Finset.card_le_card ?_).trans h.buffers⟩
  exact Finset.union_subset (Finset.insert_subset hblock hinsert)
    (hheld.trans (Finset.subset_union_right.trans Finset.subset_union_left))

theorem Accounted.blockAlloc_meets (h : Accounted g owner s) (hfree : 0 < (freeBlocks g s).card)
    (hcharge : charge.Takes g s ∅ 1) : Meets (Allowed s.log charge)
      (fun r => ∃ b, g.NextFree s b ∧ r.1 = BitVec.ofNat 32 b ∧ Allocated g s b r.2)
      (s.blockAlloc []) := by
  obtain ⟨b, hnext⟩ := exists_nextFree hfree
  exact (FS.blockAlloc_meets h.ok h.meta_used hnext heldOk_nil
    (hcharge.allocates hnext (Finset.Subset.refl _))).mono (fun _ h => h)
      fun _ hr => ⟨b, hnext, hr⟩

theorem addrAlloc_direct_meets (h : Accounted g (withFile i owner (ip.refs s.cache)) s)
    (hp : p < ndirect) (hfree : ip.blockAt s.cache p = 0 → 0 < (freeBlocks g s).card)
    (hcharge : ip.blockAt s.cache p = 0 → charge.Takes g s ∅ 1) :
    Meets (Allowed s.log charge) (fun r => Filled g i owner s ip p r.1 r.2.1 r.2.2)
      (s.addrAlloc ip p) := by
  have haddr : ip.blockAt s.cache p = ip.addr p := Dinode.blockAt_of_lt hp
  unfold Fs.addrAlloc
  by_cases hzero : ip.addr p = 0
  · have hempty := haddr.trans hzero
    rw [if_pos hzero]
    refine Meets.bind (h.blockAlloc_meets (hfree hempty) (hcharge hempty)) ?_
    rintro ⟨_, s'⟩ ⟨b, hnext, rfl, hb⟩
    exact Filled.of_allocated h hb hnext hempty
      (Dinode.blockAt_setAddr hp _ (hb.cache_indirect h)) rfl
  · rw [if_neg hzero, ← haddr]
    exact Filled.of_ne_zero h (haddr ▸ hzero)

theorem addrAlloc_indirect_meets (h : Accounted g (withFile i owner (ip.refs s.cache)) s)
    (hfree : ip.addr ndirect = 0 → 0 < (freeBlocks g s).card)
    (hcharge : ip.addr ndirect = 0 → charge.Takes g s ∅ 1) :
    Meets (Allowed s.log charge) (fun r => Filled g i owner s ip maxfile r.1 r.2.1 r.2.2)
      (s.addrAlloc ip ndirect) := by
  have haddr : ip.blockAt s.cache maxfile = ip.addr ndirect :=
    Dinode.blockAt_maxfile _ _
  unfold Fs.addrAlloc
  by_cases hzero : ip.addr ndirect = 0
  · rw [if_pos hzero]
    refine Meets.bind (h.blockAlloc_meets (hfree hzero) (hcharge hzero)) ?_
    rintro ⟨_, s'⟩ ⟨b, hnext, rfl, hb⟩
    exact Filled.of_allocated h hb hnext (haddr.trans hzero)
      (Dinode.blockAt_setAddr_indirect hzero hb.zero) rfl
  · rw [if_neg hzero, ← haddr]
    exact Filled.of_ne_zero h (haddr ▸ hzero)

theorem Filled.of_entry {s₁ : Fs} (h : Accounted g (withFile i owner (ip.refs s.cache)) s)
    (hp : ndirect ≤ p) (hmax : p < maxfile) (hind : ip.addr ndirect ≠ 0) (hb : Allocated g s b s₁)
    (hnext : g.NextFree s b) (hempty : ip.blockAt s.cache p = 0)
    (hwrote : s₁.Wrote (ip.addr ndirect)
      ((s.cache (ip.addr ndirect)).setWord (p - ndirect) (BitVec.ofNat 32 b)) s') :
    Filled g i owner s ip p (BitVec.ofNat 32 b) ip s' := by
  obtain ⟨c, hc, hused⟩ := h.indirect hind
  have hplain : Plain g (ip.addr ndirect) := hc ▸ hused.1.plain
  have hne : BitVec.ofNat 32 b ≠ ip.addr ndirect := hc ▸ (hb.ne_of_used hused).symm
  have hblockAt : ip.blockAt s'.cache =
      update (ip.blockAt s.cache) p (BitVec.ofNat 32 b) :=
    Dinode.blockAt_setWord hp hmax hind (hb.ok.cache_self hwrote hplain.not_contains)
  have hother : ∀ sector, Plain g sector → sector ≠ ip.addr ndirect →
      s'.cache sector = s₁.cache sector := fun sector hsector =>
    hb.ok.cache_of_wrote hwrote hsector.not_contains
  refine ⟨?_, hblockAt, hb.inData.ofNat_ne_zero, absurd hempty, ?_, ?_, rfl, ?_, ?_,
    fun _ => hnext.mem_allocSectors.1, fun _ k => ?_, fun _ => ?_⟩
  · rw [Dinode.refs_update hblockAt, hb.inData.blockNumber_ofNat]
    exact (h.attach hb (blockNumber_eq_none.mpr hempty)).wrote hwrote hplain
  · intro _
    rw [hother _ hb.inData.plain hne, hb.zero]
  · rw [if_pos hempty, hwrote.freeBlocks_eq hb.ok hplain, hb.card_freeBlocks]
  · rw [hwrote.busy_eq, hb.busy_eq]
  · intro sector hsector haddr hindirect
    rw [hother _ hsector hindirect, hb.cache_of_plain hsector haddr]
  · rw [allocSectors_congr (hwrote.freeBlocks_eq hb.ok hplain)]
    exact hb.allocSectors_subset k
  · rw [hwrote.sectors_eq, if_pos ⟨hp, hmax⟩, Finset.insert_subset_iff]
    exact ⟨Finset.mem_union_right _ (Finset.mem_singleton_self _),
      (hb.sectors_subset hnext).trans Finset.subset_union_left⟩

theorem entryAlloc_meets (h : Accounted g (withFile i owner (ip.refs s.cache)) s)
    (hp : ndirect ≤ p) (hmax : p < maxfile) (hind : ip.addr ndirect ≠ 0)
    (hfree : ip.blockAt s.cache p = 0 → 0 < (freeBlocks g s).card)
    (hbuffers : s.log.sectors.card ≤ charge.buffers)
    (hcharge : ip.blockAt s.cache p = 0 → charge.Takes g s {ip.addr ndirect} 1) :
    Meets (Allowed s.log charge) (fun r => Filled g i owner s ip p r.1 ip r.2)
      (s.entryAlloc (ip.addr ndirect) (p - ndirect)) := by
  have hentry : ip.blockAt s.cache p = (s.cache (ip.addr ndirect)).word (p - ndirect) := by
    rw [Dinode.blockAt_entry hp hmax, Dinode.entry, if_neg hind]
  obtain ⟨c, hc, hused⟩ := h.indirect hind
  have hplain : Plain g (ip.addr ndirect) := hc ▸ hused.1.plain
  refine Meets.bind (Fs.bufcacheRead_nil_meets hbuffers) ?_
  rintro _ rfl
  rw [← hentry]
  by_cases hempty : ip.blockAt s.cache p = 0
  · rw [if_pos hempty]
    have hheld : HeldOk g s [ip.addr ndirect] := by
      intro sector hsector
      obtain rfl := List.mem_singleton.mp hsector
      exact ⟨c, hc, hused.1, hused.2⟩
    obtain ⟨b, hnext⟩ := exists_nextFree (hfree hempty)
    have htakes := hcharge hempty
    refine Meets.bind (FS.blockAlloc_meets h.ok h.meta_used hnext hheld
      (htakes.allocates hnext (Finset.Subset.refl _))) ?_
    rintro ⟨_, s₁⟩ ⟨rfl, hb⟩
    have hlogged := hb.sectors_subset hnext
    have hsubset : insert (ip.addr ndirect) s₁.log.sectors ⊆
        s.log.sectors ∪ {ip.addr ndirect} ∪ allocSectors g s 1 := by
      rw [Finset.insert_subset_iff, Finset.union_right_comm]
      exact ⟨Finset.mem_union_right _ (Finset.mem_singleton_self _),
        hlogged.trans Finset.subset_union_left⟩
    have hwrite : Meets (Allowed s₁.log charge) _ (s₁.logWrite [ip.addr ndirect] (ip.addr ndirect)
        ((s.cache (ip.addr ndirect)).setWord (p - ndirect) (BitVec.ofNat 32 b))) :=
      hb.ok.logWrite_single_meets hplain.not_contains
        ((Finset.card_le_card ((Finset.subset_insert _ _).trans hsubset)).trans htakes.log)
        ((Finset.card_le_card hsubset).trans htakes.buffers) _
    rw [h.ok.allowed_eq hb.ok hb.busy_eq] at hwrite
    exact Meets.bind hwrite fun s₂ hwrote =>
      Filled.of_entry h hp hmax hind hb hnext hempty hwrote
  · rw [if_neg hempty]
    exact Filled.of_ne_zero h hempty

end Filling

/-! ## The specification of `bmap` -/

def blocksFor (count : ℕ) : ℕ := count + if ndirect < count then 1 else 0

theorem blocksFor_mono {count count' : ℕ} (h : count ≤ count') :
    blocksFor count ≤ blocksFor count' := by
  unfold blocksFor
  split <;> split <;> omega

theorem blocksFor_direct {count bn : ℕ} (hbn : bn ≤ count) (hlt : bn < ndirect) :
    blocksFor (max count (bn + 1)) = blocksFor count + if bn < count then 0 else 1 := by
  unfold blocksFor
  by_cases hin : bn < count
  · rw [if_pos hin, Nat.max_eq_left hin, Nat.add_zero]
  · rw [if_neg hin, Nat.max_eq_right (by omega), if_neg (by omega), if_neg (by omega)]
    omega

theorem blocksFor_indirect {count bn : ℕ} (hbn : bn ≤ count) (hge : ndirect ≤ bn) :
    blocksFor (max count (bn + 1)) = blocksFor count + (if bn < count then 0 else 1) +
      if ndirect < count then 0 else 1 := by
  unfold blocksFor
  rw [if_pos (by omega : ndirect < max count (bn + 1))]
  by_cases hin : bn < count
  · rw [if_pos hin, if_pos (by omega), if_pos (by omega), Nat.max_eq_left hin]
  · rw [if_neg hin, Nat.max_eq_right (by omega)]
    split <;> omega

theorem Shaped.blockAt_eq_zero_iff {d : Dinode} {cache : Disk} {count p : ℕ}
    (h : Shaped d cache count) (hp : p < maxfile) : d.blockAt cache p = 0 ↔ ¬ p < count := by
  rw [← h.slots p hp, not_not]

theorem Shaped.addr_eq_zero_iff {d : Dinode} {cache : Disk} {count : ℕ}
    (h : Shaped d cache count) : d.addr ndirect = 0 ↔ ¬ ndirect < count := by
  rw [← h.indirect, not_not]

theorem Shaped.fill {d d' : Dinode} {cache cache' : Disk} {count bn : ℕ} {addr : Sector}
    (h : Shaped d cache count) (hbn : bn ≤ count) (hmax : bn < maxfile) (hne : addr ≠ 0)
    (hslots : ∀ p < maxfile,
      d'.blockAt cache' p = update (d.blockAt cache) bn addr p)
    (hind : d'.addr ndirect ≠ 0 ↔ ndirect < max count (bn + 1)) :
    Shaped d' cache' (max count (bn + 1)) where
  count_le := Nat.max_le.mpr ⟨h.count_le, hmax⟩
  slots p hp := by
    rw [hslots p hp]
    by_cases heq : p = bn
    · rw [heq, update_self]
      exact iff_of_true hne (by omega)
    · rw [update_of_ne heq, h.slots p hp]
      omega
  indirect := hind

section Bmap

variable {g : Geometry} {s : Fs} {ip : Inode} {owner : ℕ × ℕ → Option ℕ} {charge : Charge}
  {i count bn : ℕ}

/-- The number of blocks that `bmap` allocates for block `bn` of a file with `count` blocks. -/
def newBlocks (count bn : ℕ) : ℕ := blocksFor (max count (bn + 1)) - blocksFor count

/-- What `bmap` logs: nothing for a block in place, and else the blocks it allocates, with their
bits, and the indirect block if the file has one and the new block goes into it. -/
def bmapSectors (g : Geometry) (s : Fs) (ip : Inode) (count bn : ℕ) : Finset Sector :=
  if bn < count then ∅
  else allocSectors g s (newBlocks count bn) ∪
    if ndirect < count then {ip.addr ndirect} else ∅

/-- What `bmap` did: file block `bn` is in place at `addr`, and the file has the blocks
it had and this one. -/
structure Mapped (g : Geometry) (i : ℕ) (owner : ℕ × ℕ → Option ℕ) (count : ℕ) (s : Fs)
    (ip : Inode) (bn : ℕ) (addr : Sector) (ip' : Inode) (s' : Fs) : Prop where
  accounted : Accounted g (withFile i owner (ip'.refs s'.cache)) s'
  slots_eq : ∀ p < maxfile,
    ip'.blockAt s'.cache p = update (ip.blockAt s.cache) bn addr p
  ne_zero : addr ≠ 0
  shaped : Shaped ip'.toDinode s'.cache (max count (bn + 1))
  same : bn < count → ip' = ip ∧ s' = s
  zero : count ≤ bn → s'.cache addr = fun _ => 0
  free : blocksFor (max count (bn + 1)) + (freeBlocks g s').card =
    blocksFor count + (freeBlocks g s).card
  fields : ip' = ip.setAddrs ip'.addrs
  busy_eq : s'.log.busy = s.log.busy
  frame : ∀ sector, Plain g sector → sector ≠ addr → sector ≠ ip'.addr ndirect →
    s'.cache sector = s.cache sector
  new : count ≤ bn → addr ∈ allocSectors g s (newBlocks count bn)
  alloc : ∀ k, allocSectors g s' k ⊆ allocSectors g s (k + newBlocks count bn)
  indirect : ndirect < max count (bn + 1) → ndirect < count ∧ ip'.addr ndirect = ip.addr ndirect ∨
    ip'.addr ndirect ∈ allocSectors g s (newBlocks count bn)
  sectors : s'.log.sectors ⊆ s.log.sectors ∪ bmapSectors g s ip count bn

variable {addr : Sector} {ip' : Inode} {s' : Fs}

theorem Mapped.blockAt_addr (h : Mapped g i owner count s ip bn addr ip' s')
    (hmax : bn < maxfile) : ip'.blockAt s'.cache bn = addr := by
  rw [h.slots_eq bn hmax, update_self]

theorem Mapped.plain (h : Mapped g i owner count s ip bn addr ip' s') (hmax : bn < maxfile) :
    Plain g addr := by
  have haddr := h.blockAt_addr hmax
  obtain ⟨b, hb, -, hused⟩ := h.accounted.exists_block (haddr.symm ▸ h.ne_zero)
  rw [← haddr, hb]
  exact hused.1.plain

variable {ind : Sector}

theorem Filled.addr_ndirect (h : Filled g i owner s ip maxfile ind ip' s') :
    ip'.addr ndirect = ind := by
  rw [← Dinode.blockAt_maxfile ip'.toDinode s'.cache, h.blockAt_eq, update_self]

theorem Filled.free_indirect (h : Filled g i owner s ip maxfile ind ip' s')
    (hshaped : Shaped ip.toDinode s.cache count) :
    (freeBlocks g s').card + (if ndirect < count then 0 else 1) = (freeBlocks g s).card := by
  rw [← h.free]
  simp only [Dinode.blockAt_maxfile, hshaped.addr_eq_zero_iff, ite_not]

theorem newBlocks_direct (hbn : count = bn) (hlt : bn < ndirect) : newBlocks count bn = 1 := by
  rw [newBlocks, blocksFor_direct hbn.ge hlt, if_neg (by omega), Nat.add_sub_cancel_left]

theorem newBlocks_indirect (hbn : count = bn) (hge : ndirect ≤ bn) :
    newBlocks count bn = if ndirect < count then 1 else 2 := by
  rw [newBlocks, blocksFor_indirect hbn.ge hge, if_neg (by omega)]
  split <;> omega

theorem Filled.mapped_direct (h : Filled g i owner s ip bn addr ip' s')
    (hshaped : Shaped ip.toDinode s.cache count) (hbn : bn ≤ count) (hlt : bn < ndirect) :
    Mapped g i owner count s ip bn addr ip' s' := by
  have hmax : bn < maxfile := Nat.lt_of_lt_of_le hlt (by decide)
  have hind : ip'.addr ndirect = ip.addr ndirect := by
    rw [← Dinode.blockAt_maxfile ip'.toDinode s'.cache, h.blockAt_eq,
      update_of_ne (by omega), Dinode.blockAt_maxfile]
  have hempty := hshaped.blockAt_eq_zero_iff hmax
  refine ⟨h.accounted, fun p _ => congrFun h.blockAt_eq p, h.ne_zero, ?_, ?_, ?_, ?_, h.fields,
    h.busy_eq, h.frame, fun hout => ?_, fun k => ?_, fun hlt => Or.inl ⟨by omega, hind⟩, ?_⟩
  · refine hshaped.fill hbn hmax h.ne_zero (fun p _ => congrFun h.blockAt_eq p) ?_
    rw [hind, hshaped.indirect]
    omega
  · intro hin
    exact h.same ((hshaped.slots bn hmax).mpr hin)
  · intro hout
    exact h.zero (hempty.mpr (by omega))
  · have hfree := h.free
    simp only [hempty, ite_not] at hfree
    rw [blocksFor_direct hbn hlt]
    omega
  · rw [newBlocks_direct (by omega) hlt]
    exact h.new (hempty.mpr (by omega))
  · by_cases hin : bn < count
    · rw [(h.same ((hshaped.slots bn hmax).mpr hin)).2]
      exact allocSectors_mono (Nat.le_add_right _ _)
    · rw [newBlocks_direct (by omega) hlt]
      exact h.alloc (hempty.mpr hin) k
  · by_cases hin : bn < count
    · rw [(h.same ((hshaped.slots bn hmax).mpr hin)).2]
      exact Finset.subset_union_left
    · have hsectors := h.sectors (hempty.mpr hin)
      rw [if_neg (by omega), Finset.union_empty] at hsectors
      rw [bmapSectors, if_neg hin, newBlocks_direct (by omega) hlt, ← Finset.union_assoc]
      exact hsectors.trans Finset.subset_union_left

theorem Filled.indirect_of_lt (h : Filled g i owner s ip maxfile ind ip' s')
    (hshaped : Shaped ip.toDinode s.cache count) (hlt : ndirect < count) : ip' = ip ∧ s' = s := by
  refine h.same ?_
  rw [Dinode.blockAt_maxfile]
  exact hshaped.indirect.mpr hlt

theorem Shaped.indirect_empty (hshaped : Shaped ip.toDinode s.cache count)
    (hle : count ≤ ndirect) : ip.blockAt s.cache maxfile = 0 := by
  rw [Dinode.blockAt_maxfile]
  exact hshaped.addr_eq_zero_iff.mpr (by omega)

theorem Filled.indirect_subset (h : Filled g i owner s ip maxfile ind ip' s')
    (hshaped : Shaped ip.toDinode s.cache count) (hbn : count = bn) (hge : ndirect ≤ bn) :
    s'.log.sectors ∪ {ip'.addr ndirect} ∪ allocSectors g s' 1 ⊆
      s.log.sectors ∪ bmapSectors g s ip count bn := by
  rw [bmapSectors, if_neg (by omega), newBlocks_indirect hbn hge]
  by_cases hlt : ndirect < count
  · obtain ⟨rfl, rfl⟩ := h.indirect_of_lt hshaped hlt
    rw [if_pos hlt, if_pos hlt, ← Finset.union_assoc, Finset.union_right_comm]
  · have hnone := hshaped.indirect_empty (by omega)
    have hsectors := h.sectors hnone
    have htwo : allocSectors g s 2 ⊆ s.log.sectors ∪ allocSectors g s 2 :=
      Finset.subset_union_right
    rw [if_neg (by omega), Finset.union_empty] at hsectors
    rw [if_neg hlt, if_neg hlt, Finset.union_empty]
    -- the new indirect block is the first of the two allocated ones
    refine Finset.union_subset (Finset.union_subset ?_ ?_) ?_
    · exact hsectors.trans (Finset.union_subset_union_right (allocSectors_mono (by decide)))
    · rw [h.addr_ndirect, Finset.singleton_subset_iff]
      exact htwo (allocSectors_mono (by decide) (h.new hnone))
    · exact (h.alloc hnone 1).trans htwo

theorem Filled.mapped_indirect {s₁ s' : Fs} (h : Filled g i owner s ip maxfile ind ip' s₁)
    (h' : Filled g i owner s₁ ip' bn addr ip' s') (hshaped : Shaped ip.toDinode s.cache count)
    (hbn : bn ≤ count) (hge : ndirect ≤ bn) (hmax : bn < maxfile) :
    Mapped g i owner count s ip bn addr ip' s' := by
  have hind : ip'.addr ndirect = ind := h.addr_ndirect
  have hbn_eq : ip'.blockAt s₁.cache bn = ip.blockAt s.cache bn := by
    rw [h.blockAt_eq, update_of_ne (by omega)]
  have hslots : ∀ p < maxfile,
      ip'.blockAt s'.cache p = update (ip.blockAt s.cache) bn addr p := by
    intro p hp
    rw [h'.blockAt_eq, h.blockAt_eq, update_comm (by omega),
      update_of_ne (by omega)]
  have hempty := hshaped.blockAt_eq_zero_iff hmax
  have hkept := h.indirect_of_lt hshaped
  have hnone := hshaped.indirect_empty
  have hsame : bn < count → ip' = ip ∧ s' = s := by
    intro hin
    obtain ⟨rfl, rfl⟩ := hkept (by omega)
    exact h'.same ((hshaped.slots bn hmax).mpr hin)
  refine ⟨h'.accounted, hslots, h'.ne_zero, ?_, hsame, ?_, ?_, ?_, ?_, ?_, fun hout => ?_,
    fun k => ?_, fun _ => ?_, ?_⟩
  · refine hshaped.fill hbn hmax h'.ne_zero hslots ?_
    rw [hind]
    exact iff_of_true h.ne_zero (by omega)
  · intro hout
    exact h'.zero (hbn_eq.trans (hempty.mpr (by omega)))
  · have hfree := h.free_indirect hshaped
    have hfree' := h'.free
    simp only [hbn_eq, hempty, ite_not] at hfree'
    rw [blocksFor_indirect hbn hge]
    omega
  · exact h.fields
  · rw [h'.busy_eq, h.busy_eq]
  · intro sector hplain hne hne'
    rw [h'.frame sector hplain hne hne', h.frame sector hplain (hind ▸ hne') hne']
  · have hnew := h'.new (hbn_eq.trans (hempty.mpr (by omega)))
    rw [newBlocks_indirect (by omega) hge]
    by_cases hlt : ndirect < count
    · rw [(hkept hlt).2] at hnew
      rwa [if_pos hlt]
    · rw [if_neg hlt]
      exact h.alloc (hnone (by omega)) 1 hnew
  · by_cases hin : bn < count
    · rw [(hsame hin).2]
      exact allocSectors_mono (Nat.le_add_right _ _)
    · have halloc := h'.alloc (hbn_eq.trans (hempty.mpr hin)) k
      rw [newBlocks_indirect (by omega) hge]
      by_cases hlt : ndirect < count
      · rw [(hkept hlt).2] at halloc
        rwa [if_pos hlt]
      · rw [if_neg hlt]
        exact halloc.trans (h.alloc (hnone (by omega)) (k + 1))
  · by_cases hlt : ndirect < count
    · rw [(hkept hlt).1]
      exact Or.inl ⟨hlt, rfl⟩
    · rw [newBlocks_indirect (by omega) hge, if_neg hlt, hind]
      exact Or.inr (allocSectors_mono (by decide) (h.new (hnone (by omega))))
  · by_cases hin : bn < count
    · rw [(hsame hin).2]
      exact Finset.subset_union_left
    · have hsectors' := h'.sectors (hbn_eq.trans (hempty.mpr hin))
      rw [if_pos ⟨hge, hmax⟩, Finset.union_right_comm] at hsectors'
      exact hsectors'.trans (h.indirect_subset hshaped (by omega) hge)

/-- **`bmap`** with the file blocks before `bn` in place. -/
theorem bmap_meets (h : Accounted g (withFile i owner (ip.refs s.cache)) s)
    (hshaped : Shaped ip.toDinode s.cache count) (hbn : bn ≤ count) (hmax : bn < maxfile)
    (hfree : blocksFor (max count (bn + 1)) ≤ blocksFor count + (freeBlocks g s).card)
    (hlog : count ≤ bn → (s.log.sectors ∪ bmapSectors g s ip count bn).card ≤ charge.log)
    (hbuffers : (s.log.sectors ∪ bmapSectors g s ip count bn).card ≤ charge.buffers) :
    Meets (Allowed s.log charge) (fun r => Mapped g i owner count s ip bn r.1 r.2.1 r.2.2)
      (s.bmap ip bn) := by
  have hempty := hshaped.blockAt_eq_zero_iff hmax
  unfold Fs.bmap
  by_cases hlt : bn < ndirect
  · rw [if_pos hlt]
    rw [blocksFor_direct hbn hlt] at hfree
    refine (addrAlloc_direct_meets h hlt ?_ ?_).mono (fun _ h => h) ?_
    · intro hzero
      rw [if_neg (hempty.mp hzero)] at hfree
      omega
    · intro hzero
      have hout := hempty.mp hzero
      have hlog := hlog (by omega)
      rw [bmapSectors, if_neg hout, newBlocks_direct (by omega) hlt, if_neg (by omega),
        Finset.union_empty] at hlog hbuffers
      exact ⟨by rwa [Finset.union_empty], by rwa [Finset.union_empty]⟩
    · rintro ⟨addr, ip', s'⟩ hfilled
      exact hfilled.mapped_direct hshaped hbn hlt
  · have hge : ndirect ≤ bn := Nat.le_of_not_lt hlt
    rw [if_neg hlt, if_pos (by unfold maxfile at hmax; omega)]
    rw [blocksFor_indirect hbn hge] at hfree
    refine Meets.bind (addrAlloc_indirect_meets h ?_ ?_) ?_
    · intro hzero
      rw [if_neg (hshaped.addr_eq_zero_iff.mp hzero)] at hfree
      omega
    · intro hzero
      have hnot := hshaped.addr_eq_zero_iff.mp hzero
      have hlog := hlog (by omega)
      rw [bmapSectors, if_neg (by omega), newBlocks_indirect (by omega) hge, if_neg hnot,
        if_neg hnot, Finset.union_empty] at hlog hbuffers
      have hmono := Finset.card_le_card (Finset.union_subset_union_right (s := s.log.sectors)
        (allocSectors_mono (g := g) (s := s) (by decide : 1 ≤ 2)))
      exact ⟨by rw [Finset.union_empty]; exact hmono.trans hlog,
        by rw [Finset.union_empty]; exact hmono.trans hbuffers⟩
    · rintro ⟨ind, ip', s₁⟩ (hfilled : Filled g i owner s ip maxfile ind ip' s₁)
      obtain rfl : ip'.addr ndirect = ind := hfilled.addr_ndirect
      have hfree' : ip'.blockAt s₁.cache bn = 0 → 0 < (freeBlocks g s₁).card := by
        intro hzero
        rw [hfilled.blockAt_eq, update_of_ne (by omega)] at hzero
        have hcount := hfilled.free_indirect hshaped
        rw [if_neg (hempty.mp hzero)] at hfree
        omega
      have htakes : ip'.blockAt s₁.cache bn = 0 → charge.Takes g s₁ {ip'.addr ndirect} 1 := by
        intro hzero
        rw [hfilled.blockAt_eq, update_of_ne (by omega)] at hzero
        have hout := hempty.mp hzero
        have hcard := Finset.card_le_card (hfilled.indirect_subset hshaped (by omega) hge)
        exact ⟨hcard.trans (hlog (by omega)), hcard.trans hbuffers⟩
      have hsubset : s₁.log.sectors ⊆ s.log.sectors ∪ bmapSectors g s ip count bn := by
        by_cases hin : bn < count
        · rw [(hfilled.indirect_of_lt hshaped (by omega)).2]
          exact Finset.subset_union_left
        · exact (Finset.subset_union_left.trans Finset.subset_union_left).trans
            (hfilled.indirect_subset hshaped (by omega) hge)
      have hentry : Meets (Allowed s₁.log charge) _ _ :=
        entryAlloc_meets hfilled.accounted hge hmax hfilled.ne_zero hfree'
          ((Finset.card_le_card hsubset).trans hbuffers) htakes
      rw [h.ok.allowed_eq hfilled.accounted.ok hfilled.busy_eq] at hentry
      refine Meets.bind hentry ?_
      rintro ⟨addr, s'⟩ hfilled'
      exact hfilled.mapped_indirect hfilled' hshaped hbn hge hmax

end Bmap

end MCertikos.FS
