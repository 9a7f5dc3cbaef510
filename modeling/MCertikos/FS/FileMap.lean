/-
# The blocks of the files

The positions of an inode are its 140 file blocks and, after them, its indirect block.
-/

import Mathlib.Data.Finset.Max
import MCertikos.FS.BlockInv
import MCertikos.FS.Inode
import MCertikos.Math.Ownership

namespace MCertikos.FS

open Math Function

/-! ## Inodes on the disk -/

namespace Dinode

variable {d d' : Dinode} {cache cache' : Disk}

theorem addr_setAddr {i : ℕ} (hi : i ≤ ndirect) (a : Sector) (j : ℕ) :
    (d.setAddr i a).addr j = if j = i then a else d.addr j := by
  unfold addr setAddr
  by_cases hj : j < ndirect + 1
  · rw [dif_pos hj, dif_pos hj]
  · rw [dif_neg hj, dif_neg hj, if_neg (by omega)]

theorem decode_congr {data data' : Block} {k : ℕ}
    (hword : ∀ i < 16, data.word (16 * k + i) = data'.word (16 * k + i)) :
    decode data k = decode data' k := by
  have hfirst : data.word (16 * k) = data'.word (16 * k) := hword 0 (by decide)
  have haddrs : ∀ i : Fin (ndirect + 1), data.word (16 * k + (i.val + 3)) =
      data'.word (16 * k + (i.val + 3)) := by
    intro i
    have hi : i.val < 13 := i.isLt
    exact hword _ (by omega)
  simp only [decode, hfirst, hword 1 (by decide), hword 2 (by decide), haddrs]

theorem decode_encode {data : Block} {k : ℕ} (hk : k < ipb) : decode (d.encode data k) k = d := by
  have hroom : 4 * (16 * k + 16) ≤ bsize := by
    unfold ipb at hk
    unfold bsize
    omega
  have hword : ∀ i < 16, (d.encode data k).word (16 * k + i) = d.words i := fun i hi =>
    Bytes.word_setWords hi hroom
  have hfirst : (d.encode data k).word (16 * k) = d.words 0 := hword 0 (by decide)
  have haddrs : ∀ i : Fin (ndirect + 1),
      (d.encode data k).word (16 * k + (i.val + 3)) = d.addrs i := by
    intro i
    have hi : i.val < 13 := i.isLt
    rw [hword _ (by omega), words, addr, dif_pos i.isLt]
  simp only [decode, hfirst, hword 1 (by decide), hword 2 (by decide), haddrs, words,
    BitVec.extractLsb'_append_eq_right, BitVec.extractLsb'_append_eq_left]

theorem decode_encode_of_ne {data : Block} {k k' : ℕ} (hne : k' ≠ k) :
    decode (d.encode data k) k' = decode data k' := by
  apply decode_congr
  intro i hi
  obtain hlt | hlt := Nat.lt_or_gt_of_ne hne
  · exact Bytes.word_setWords_of_lt (by omega)
  · exact Bytes.word_setWords_of_le (by omega)

/-! ## The positions of an inode -/

def entry (d : Dinode) (cache : Disk) (j : ℕ) : Sector :=
  if d.addr ndirect = 0 then 0 else (cache (d.addr ndirect)).word j

def blockAt (d : Dinode) (cache : Disk) (p : ℕ) : Sector :=
  if p < ndirect then d.addr p
  else if p < maxfile then d.entry cache (p - ndirect)
  else if p = maxfile then d.addr ndirect
  else 0

theorem blockAt_maxfile (d : Dinode) (cache : Disk) : d.blockAt cache maxfile = d.addr ndirect := by
  rw [blockAt, if_neg (by decide), if_neg (by decide), if_pos rfl]

variable {p : ℕ}

theorem blockAt_of_lt (hp : p < ndirect) : d.blockAt cache p = d.addr p := if_pos hp

theorem blockAt_entry (hp : ndirect ≤ p) (hmax : p < maxfile) :
    d.blockAt cache p = d.entry cache (p - ndirect) := by
  rw [blockAt, if_neg (by omega), if_pos hmax]

theorem blockAt_of_addr_zero (haddr : ∀ i, d.addr i = 0) (p : ℕ) : d.blockAt cache p = 0 := by
  simp only [blockAt, entry, haddr, if_true, ite_self]

theorem blockAt_congr (haddr : ∀ i, d'.addr i = d.addr i)
    (hind : d.addr ndirect ≠ 0 → cache' (d.addr ndirect) = cache (d.addr ndirect)) :
    d'.blockAt cache' = d.blockAt cache := by
  funext p
  have hentry : ∀ j, d'.entry cache' j = d.entry cache j := by
    intro j
    unfold entry
    rw [haddr]
    split
    · rfl
    · next hne => rw [hind hne]
  simp only [blockAt, haddr, hentry]

theorem blockAt_setAddr (hp : p < ndirect) (a : Sector)
    (hind : d.addr ndirect ≠ 0 → cache' (d.addr ndirect) = cache (d.addr ndirect)) :
    (d.setAddr p a).blockAt cache' = update (d.blockAt cache) p a := by
  have haddr := addr_setAddr (d := d) (Nat.le_of_lt hp) a
  have hndirect : (d.setAddr p a).addr ndirect = d.addr ndirect := by
    rw [haddr, if_neg (by omega)]
  have hentry : ∀ j, (d.setAddr p a).entry cache' j = d.entry cache j := by
    intro j
    unfold entry
    rw [hndirect]
    split
    · rfl
    · next hne => rw [hind hne]
  funext q
  by_cases hq : q = p
  · subst hq
    rw [update_self, blockAt_of_lt hp, haddr, if_pos rfl]
  · rw [update_of_ne hq]
    simp only [blockAt, haddr, if_neg hq, hentry, if_neg (Nat.ne_of_gt hp)]

theorem blockAt_setAddr_indirect {a : Sector} (hnone : d.addr ndirect = 0)
    (hzero : cache' a = fun _ => 0) :
    (d.setAddr ndirect a).blockAt cache' = update (d.blockAt cache) maxfile a := by
  have haddr := addr_setAddr (d := d) (Nat.le_refl ndirect) a
  have hndirect : (d.setAddr ndirect a).addr ndirect = a := by rw [haddr, if_pos rfl]
  have hentry : ∀ j, (d.setAddr ndirect a).entry cache' j = 0 := by
    intro j
    rw [entry, hndirect, hzero, Bytes.word_zero, ite_self]
  have hentry' : ∀ j, d.entry cache j = 0 := fun j => if_pos hnone
  funext q
  by_cases hq : q = maxfile
  · rw [hq, update_self, blockAt_maxfile, hndirect]
  · rw [update_of_ne hq]
    unfold blockAt
    rw [if_neg hq, if_neg hq, hentry, hentry', haddr]
    by_cases hlt : q < ndirect
    · rw [if_pos hlt, if_pos hlt, if_neg (Nat.ne_of_lt hlt)]
    · rw [if_neg hlt, if_neg hlt]

theorem blockAt_setWord {a : Sector} (hp : ndirect ≤ p) (hmax : p < maxfile)
    (hind : d.addr ndirect ≠ 0)
    (hcache : cache' (d.addr ndirect) = (cache (d.addr ndirect)).setWord (p - ndirect) a) :
    d.blockAt cache' = update (d.blockAt cache) p a := by
  have hword : 4 * (p - ndirect) + 4 ≤ bsize := by
    unfold maxfile ndirect nindirect at hmax
    unfold ndirect bsize
    omega
  funext q
  by_cases hq : q = p
  · subst hq
    rw [update_self, blockAt_entry hp hmax, entry, if_neg hind, hcache,
      Bytes.word_setWord hword]
  · rw [update_of_ne hq]
    unfold blockAt
    by_cases hlt : q < ndirect
    · rw [if_pos hlt, if_pos hlt]
    · rw [if_neg hlt, if_neg hlt, entry, entry, if_neg hind, if_neg hind, hcache,
        Bytes.word_setWord_of_ne (by omega)]

end Dinode

def blockNumber (a : Sector) : Option ℕ := if a = 0 then none else some a.toNat

@[simp] theorem blockNumber_zero : blockNumber 0 = none := rfl

variable {a : Sector}

theorem blockNumber_eq_none : blockNumber a = none ↔ a = 0 := by
  unfold blockNumber
  split <;> simp_all

theorem blockNumber_eq_some {b : ℕ} (h : blockNumber a = some b) : a = BitVec.ofNat 32 b := by
  obtain ⟨-, h⟩ := Option.ite_none_left_eq_some.mp h
  rw [← Option.some_inj.mp h, BitVec.ofNat_toNat, BitVec.setWidth_eq]

theorem blockNumber_ofNat {b : ℕ} (hpos : 0 < b) (hlt : b < 2 ^ 32) :
    blockNumber (BitVec.ofNat 32 b) = some b := by
  have htoNat : (BitVec.ofNat 32 b).toNat = b := by
    rw [BitVec.toNat_ofNat, Nat.mod_eq_of_lt hlt]
  have hne : BitVec.ofNat 32 b ≠ 0 := by
    intro heq
    rw [heq] at htoNat
    exact absurd htoNat (Nat.ne_of_lt hpos)
  rw [blockNumber, if_neg hne, htoNat]

def Dinode.refs (d : Dinode) (cache : Disk) (p : ℕ) : Option ℕ := blockNumber (d.blockAt cache p)

theorem Dinode.refs_update {d d' : Dinode} {cache cache' : Disk} {p : ℕ}
    (h : d'.blockAt cache' = update (d.blockAt cache) p a) :
    d'.refs cache' = update (d.refs cache) p (blockNumber a) := by
  funext q
  rw [refs, h, apply_update (fun _ => blockNumber)]
  rfl

/-! ## Consistent file systems -/

def fileSlots (size : ℕ) : ℕ := (size + (bsize - 1)) / bsize

theorem lt_fileSlots {p size : ℕ} : p < fileSlots size ↔ p * bsize < size := by
  unfold fileSlots bsize
  omega

theorem fileSlots_le {count size : ℕ} : fileSlots size ≤ count ↔ size ≤ count * bsize := by
  unfold fileSlots bsize
  omega

/-- The first `count` file blocks of an inode are allocated, and the indirect block is if
one of its addresses is needed. -/
structure Shaped (d : Dinode) (cache : Disk) (count : ℕ) : Prop where
  count_le : count ≤ maxfile
  slots : ∀ p < maxfile, d.blockAt cache p ≠ 0 ↔ p < count
  indirect : d.addr ndirect ≠ 0 ↔ ndirect < count

def Fs.dinode (s : Fs) (i : ℕ) : Dinode := Dinode.decode (s.cache (iblock i)) (i % ipb)

def InodeAllocated (g : Geometry) (s : Fs) (i : ℕ) : Prop := i < g.ninodes ∧ (s.dinode i).type ≠ 0

instance (g : Geometry) (s : Fs) (i : ℕ) : Decidable (InodeAllocated g s i) := by
  unfold InodeAllocated
  infer_instance

def refs (g : Geometry) (s : Fs) (k : ℕ × ℕ) : Option ℕ :=
  if InodeAllocated g s k.1 then (s.dinode k.1).refs s.cache k.2 else none

def Geometry.DataUsed (g : Geometry) (s : Fs) (b : ℕ) : Prop := g.InData b ∧ g.used s b = true

/-- The bits of the metadata are set, and those of the data blocks are accounted for by a
table of owners. -/
structure Accounted (g : Geometry) (owner : ℕ × ℕ → Option ℕ) (s : Fs) : Prop where
  ok : FsOk g s
  meta_used : ∀ b < g.dataStart, g.used s b = true
  owns : Owns owner (g.DataUsed s)

/-- **Consistent file systems.** The blocks of the allocated inodes are pairwise distinct, exactly
these data blocks are in use, and each inode has the blocks its size asks for. -/
structure Consistent (g : Geometry) (s : Fs) : Prop where
  accounted : Accounted g (refs g s) s
  shaped : ∀ i, InodeAllocated g s i →
    Shaped (s.dinode i) s.cache (fileSlots (s.dinode i).size.toNat)

/-! ## Steps of an operation -/

/-- A sector of an inode block or a data block: no `log_write` of it changes the log, the
superblock or the bitmap. -/
structure Plain (g : Geometry) (sector : Sector) : Prop where
  not_contains : ¬ g.region.Contains sector
  ne_one : sector ≠ 1
  ne_bitmap : ∀ c < g.size, g.bitmapSector c ≠ sector

def withFile (i : ℕ) (owner : ℕ × ℕ → Option ℕ) (mine : ℕ → Option ℕ) (k : ℕ × ℕ) : Option ℕ :=
  if k.1 = i then mine k.2 else owner k

theorem withFile_update {i : ℕ} {owner : ℕ × ℕ → Option ℕ} {mine : ℕ → Option ℕ} {p : ℕ}
    {x : Option ℕ} : withFile i owner (update mine p x) =
      update (withFile i owner mine) (i, p) x := by
  funext ⟨j, q⟩
  simp only [withFile, update_apply, Prod.mk.injEq]
  by_cases hj : j = i <;> simp [hj]

section Steps

variable {g : Geometry} {s s' : Fs} {owner : ℕ × ℕ → Option ℕ} {mine : ℕ → Option ℕ} {i b : ℕ}

theorem Geometry.InData.pos (h : g.InData b) : 0 < b := by
  have hfour := g.four_le_dataStart
  have hstart := h.1
  omega

theorem Geometry.InData.plain (h : g.InData b) : Plain g (BitVec.ofNat 32 b) := by
  have hsize := h.lt_size
  have hfour := g.four_le_dataStart
  have hlt := g.size_lt
  have hstart := h.1
  refine ⟨Geometry.not_contains_of_lt h.2, ?_, fun c hc =>
    Geometry.bitmapSector_ne_ofNat hc h.1 hsize⟩
  intro heq
  have hone := Geometry.ofNat_inj (c := 1) (by omega) (by omega) heq
  omega

theorem Geometry.InData.blockNumber_ofNat (h : g.InData b) :
    blockNumber (BitVec.ofNat 32 b) = some b := by
  have hsize := h.lt_size
  have hlt := g.size_lt
  exact FS.blockNumber_ofNat h.pos (by omega)

theorem Geometry.InData.ofNat_ne_zero (h : g.InData b) : BitVec.ofNat 32 b ≠ 0 := by
  intro hzero
  have hsome := h.blockNumber_ofNat
  rw [blockNumber_eq_none.mpr hzero] at hsome
  cases hsome

theorem iblock_lt (hi : i < g.ninodes) : i / ipb + 2 < g.ninodes / ipb + 3 := by
  have hdiv : i / ipb ≤ g.ninodes / ipb := Nat.div_le_div_right (Nat.le_of_lt hi)
  omega

theorem ninodes_lt_dataStart : g.ninodes / ipb + 3 < g.dataStart := by
  exact Nat.lt_add_of_pos_right (Nat.succ_pos _)

theorem plain_iblock (hi : i < g.ninodes) : Plain g (iblock i) := by
  have hlt := iblock_lt hi
  have hmeta := ninodes_lt_dataStart (g := g)
  have hdata := g.dataStart_le_dataEnd
  have hend := g.dataEnd_le_size
  have hsize := g.size_lt
  refine ⟨Geometry.not_contains_of_lt (by omega), ?_, ?_⟩
  · intro heq
    have hone := Geometry.ofNat_inj (c := 1) (by omega) (by omega) heq
    exact absurd hone (Nat.ne_of_gt (Nat.lt_add_left _ (by decide)))
  · intro c hc heq
    have hbitmap := Geometry.bitmapSector_lt hc
    have hnat := Geometry.ofNat_inj (by omega) (by omega) heq
    exact absurd hnat (by unfold ipb bpb; unfold ipb at hlt; omega)

theorem iblock_ne_ofNat (hi : i < g.ninodes) (hb : g.InData b) : iblock i ≠ BitVec.ofNat 32 b := by
  have hlt := iblock_lt hi
  have hmeta := ninodes_lt_dataStart (g := g)
  have hsize := hb.lt_size
  have hlt' := g.size_lt
  have hstart := hb.1
  intro heq
  have hnat := Geometry.ofNat_inj (by omega) (by omega) heq
  omega

theorem Accounted.inData (h : Accounted g owner s) {k : ℕ × ℕ} (hk : owner k = some b) :
    g.InData b := (h.owns.used_of_some hk).1

theorem Accounted.dataUsed (h : Accounted g (withFile i owner mine) s) {p : ℕ}
    (hp : mine p = some b) : g.DataUsed s b :=
  h.owns.used_of_some (k := (i, p)) ((if_pos rfl).trans hp)

theorem Accounted.attach (h : Accounted g (withFile i owner mine) s)
    (hb : Allocated g s b s') {p : ℕ} (hp : mine p = none) :
    Accounted g (withFile i owner (update mine p (some b))) s' where
  ok := hb.ok
  meta_used c hc := by
    rw [hb.used_eq c (Nat.lt_of_lt_of_le hc g.dataStart_le_size), h.meta_used c hc, Bool.true_or]
  owns := by
    rw [withFile_update]
    refine h.owns.assign ((if_pos rfl).trans hp) ?_ fun c => ?_
    · rintro ⟨-, hused⟩
      exact absurd (hb.fresh.symm.trans hused) (by decide)
    · constructor
      · rintro ⟨hdata, hused⟩
        rw [hb.used_eq c hdata.lt_size, Bool.or_eq_true, decide_eq_true_eq] at hused
        exact hused.imp_left fun hused => ⟨hdata, hused⟩
      · rintro (⟨hdata, hused⟩ | rfl)
        · exact ⟨hdata, by rw [hb.used_eq c hdata.lt_size, hused, Bool.true_or]⟩
        · refine ⟨hb.inData, ?_⟩
          rw [hb.used_eq c hb.inData.lt_size, decide_eq_true rfl, Bool.or_true]

theorem Accounted.detach (h : Accounted g (withFile i owner mine) s) (hb : Freed g s b s')
    {p : ℕ} (hp : mine p = some b) : Accounted g (withFile i owner (update mine p none)) s' where
  ok := hb.ok
  meta_used c hc := by
    have hdata := (h.dataUsed hp).1.1
    have hne : c ≠ b := by omega
    rw [hb.used_eq c (Nat.lt_of_lt_of_le hc g.dataStart_le_size), h.meta_used c hc,
      decide_eq_true hne, Bool.and_true]
  owns := by
    rw [withFile_update]
    refine h.owns.release ((if_pos rfl).trans hp) fun c => ?_
    constructor
    · rintro ⟨hdata, hused⟩
      rw [hb.used_eq c hdata.lt_size, Bool.and_eq_true, decide_eq_true_eq] at hused
      exact ⟨⟨hdata, hused.1⟩, hused.2⟩
    · rintro ⟨⟨hdata, hused⟩, hne⟩
      refine ⟨hdata, ?_⟩
      rw [hb.used_eq c hdata.lt_size, hused, decide_eq_true hne, Bool.and_true]

theorem Accounted.wrote (h : Accounted g owner s) {sector : Sector} {data : Block}
    (hwrote : s.Wrote sector data s') (hplain : Plain g sector) : Accounted g owner s' where
  ok := h.ok.wrote hwrote hplain.ne_one
  meta_used c hc := by
    rw [h.ok.used_of_wrote hwrote hplain.ne_bitmap (Nat.lt_of_lt_of_le hc
      g.dataStart_le_size)]
    exact h.meta_used c hc
  owns := by
    refine h.owns.congr fun c => and_congr_right fun hdata => ?_
    rw [h.ok.used_of_wrote hwrote hplain.ne_bitmap hdata.lt_size]

/-! ## Free blocks -/

def freeBlocks (g : Geometry) (s : Fs) : Finset ℕ :=
  (Finset.range g.size).filter fun b => g.InData b ∧ g.used s b = false

theorem mem_freeBlocks : b ∈ freeBlocks g s ↔ g.InData b ∧ g.used s b = false := by
  rw [freeBlocks, Finset.mem_filter, Finset.mem_range, and_iff_right_of_imp]
  exact fun h => h.1.lt_size

theorem exists_nextFree (h : 0 < (freeBlocks g s).card) : ∃ b, g.NextFree s b := by
  obtain ⟨c, hc⟩ := Finset.card_pos.mp h
  exact Geometry.exists_nextFree ⟨c, mem_freeBlocks.mp hc⟩

theorem Allocated.freeBlocks_eq (h : Allocated g s b s') :
    freeBlocks g s' = (freeBlocks g s).erase b := by
  ext c
  rw [Finset.mem_erase, mem_freeBlocks, mem_freeBlocks]
  constructor
  · rintro ⟨hdata, hfree⟩
    rw [h.used_eq c hdata.lt_size, Bool.or_eq_false_iff, decide_eq_false_iff_not] at hfree
    exact ⟨hfree.2, hdata, hfree.1⟩
  · rintro ⟨hne, hdata, hfree⟩
    refine ⟨hdata, ?_⟩
    rw [h.used_eq c hdata.lt_size, hfree, decide_eq_false hne, Bool.or_false]

theorem Allocated.card_freeBlocks (h : Allocated g s b s') :
    (freeBlocks g s').card + 1 = (freeBlocks g s).card := by
  rw [h.freeBlocks_eq, Finset.card_erase_add_one (mem_freeBlocks.mpr ⟨h.inData, h.fresh⟩)]

theorem Fs.Wrote.freeBlocks_eq {sector : Sector} {data : Block} (hwrote : s.Wrote sector data s')
    (h : FsOk g s) (hplain : Plain g sector) : freeBlocks g s' = freeBlocks g s := by
  ext c
  rw [mem_freeBlocks, mem_freeBlocks, and_congr_right_iff]
  intro hdata
  rw [h.used_of_wrote hwrote hplain.ne_bitmap hdata.lt_size]

/-- The lowest `k` free blocks, which `k` calls of `block_alloc` take. -/
def lowestFree (g : Geometry) (s : Fs) (k : ℕ) : Finset ℕ :=
  (freeBlocks g s).filter fun b => ((freeBlocks g s).filter (· < b)).card < k

/-- The sectors that `k` calls of `block_alloc` log: the blocks they take, and the blocks of the
bitmap with their bits. -/
def allocSectors (g : Geometry) (s : Fs) (k : ℕ) : Finset Sector :=
  (lowestFree g s k).image (BitVec.ofNat 32) ∪ (lowestFree g s k).image g.bitmapSector

variable {k : ℕ}

theorem mem_lowestFree :
    b ∈ lowestFree g s k ↔ b ∈ freeBlocks g s ∧ ((freeBlocks g s).filter (· < b)).card < k :=
  Finset.mem_filter

theorem card_lowestFree_le (g : Geometry) (s : Fs) (k : ℕ) : (lowestFree g s k).card ≤ k := by
  obtain hempty | hne := (lowestFree g s k).eq_empty_or_nonempty
  · rw [hempty]
    exact Nat.zero_le k
  · obtain ⟨top, htop, hmax⟩ := (lowestFree g s k).exists_max_image id hne
    -- all but the highest of them are below it
    have hbelow : (lowestFree g s k).erase top ⊆ (freeBlocks g s).filter (· < top) := by
      intro c hc
      obtain ⟨hne, hc⟩ := Finset.mem_erase.mp hc
      exact Finset.mem_filter.mpr ⟨(mem_lowestFree.mp hc).1, lt_of_le_of_ne (hmax c hc) hne⟩
    have hcard := (Finset.card_le_card hbelow).trans_lt (mem_lowestFree.mp htop).2
    have herase := Finset.card_erase_add_one htop
    omega

theorem allocSectors_mono {k' : ℕ} (h : k ≤ k') : allocSectors g s k ⊆ allocSectors g s k' := by
  have hsubset : lowestFree g s k ⊆ lowestFree g s k' := fun b hb =>
    mem_lowestFree.mpr ⟨(mem_lowestFree.mp hb).1, (mem_lowestFree.mp hb).2.trans_le h⟩
  exact Finset.union_subset_union (Finset.image_subset_image hsubset)
    (Finset.image_subset_image hsubset)

theorem allocSectors_congr (h : freeBlocks g s' = freeBlocks g s) :
    allocSectors g s' k = allocSectors g s k := by
  rw [allocSectors, lowestFree, h, ← lowestFree, ← allocSectors]

theorem Geometry.NextFree.mem_allocSectors (h : g.NextFree s b) :
    BitVec.ofNat 32 b ∈ allocSectors g s 1 ∧ g.bitmapSector b ∈ allocSectors g s 1 := by
  have hmem : b ∈ lowestFree g s 1 := by
    refine mem_lowestFree.mpr ⟨mem_freeBlocks.mpr ⟨h.inData, h.clear⟩, ?_⟩
    rw [Finset.filter_eq_empty_iff.mpr, Finset.card_empty]
    · exact Nat.one_pos
    · intro c hc
      obtain ⟨hdata, hclear⟩ := mem_freeBlocks.mp hc
      exact Nat.not_lt_of_le (h.least c hdata hclear)
  exact ⟨Finset.mem_union_left _ (Finset.mem_image_of_mem _ hmem),
    Finset.mem_union_right _ (Finset.mem_image_of_mem _ hmem)⟩

theorem Allocated.allocSectors_subset (h : Allocated g s b s') (k : ℕ) :
    allocSectors g s' k ⊆ allocSectors g s (k + 1) := by
  have hsubset : lowestFree g s' k ⊆ lowestFree g s (k + 1) := by
    intro c hc
    rw [mem_lowestFree, h.freeBlocks_eq] at hc
    refine mem_lowestFree.mpr ⟨Finset.mem_of_mem_erase hc.1, ?_⟩
    -- below `c` there is at most the allocated block more
    have hinsert : (freeBlocks g s).filter (· < c) ⊆
        insert b (((freeBlocks g s).erase b).filter (· < c)) := by
      intro d hd
      obtain ⟨hfree, hlt⟩ := Finset.mem_filter.mp hd
      by_cases hdb : d = b
      · exact hdb ▸ Finset.mem_insert_self _ _
      · exact Finset.mem_insert_of_mem
          (Finset.mem_filter.mpr ⟨Finset.mem_erase.mpr ⟨hdb, hfree⟩, hlt⟩)
    have hcard := (Finset.card_le_card hinsert).trans (Finset.card_insert_le _ _)
    omega
  exact Finset.union_subset_union (Finset.image_subset_image hsubset)
    (Finset.image_subset_image hsubset)

end Steps

end MCertikos.FS
