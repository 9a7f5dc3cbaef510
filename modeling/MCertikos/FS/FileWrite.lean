/-
# Writing and reading files

The loop of `inode_write` maps and writes one block after the other.
-/

import Mathlib.Order.Interval.Finset.Nat
import MCertikos.FS.Truncate

namespace MCertikos.FS

open Math

section Write

variable {g : Geometry} {s₀ s s' : Fs} {ip₀ ip ip' : Inode} {charge : Charge}
  {fin count off : ℕ}

/-- The loop of `inode_write` on its way from `s₀` to the offset `fin`: the first `count` blocks
of the file are in place and reach to `off`. -/
structure Writing (g : Geometry) (s₀ : Fs) (ip₀ : Inode) (fin count off : ℕ) (ip : Inode)
    (s : Fs) : Prop where
  accounted : Accounted g (withFile ip₀.inum.toNat (refs g s₀) (ip.refs s.cache)) s
  region_eq : s₀.log.toRegion = g.region
  shaped : Shaped ip.toDinode s.cache count
  off_le : off ≤ count * bsize
  count_ge : fileSlots ip₀.size.toNat ≤ count
  count_le : count ≤ max (fileSlots ip₀.size.toNat) (fileSlots fin)
  free : blocksFor (max (fileSlots ip₀.size.toNat) (fileSlots fin)) ≤
    blocksFor count + (freeBlocks g s).card
  same : fin ≤ ip₀.size.toNat → ip = ip₀
  fields : ip = ip₀.setAddrs ip.addrs
  busy_eq : s.log.busy = s₀.log.busy
  kept : Kept g ip₀.inum.toNat (refs g s₀) s₀ s

theorem Writing.allowed_eq (h : Writing g s₀ ip₀ fin count off ip s) :
    Allowed s.log charge = Allowed s₀.log charge :=
  Allowed.congr (h.accounted.ok.region_eq.trans h.region_eq.symm) h.busy_eq

theorem div_lt_fileSlots (hoff : off < fin) : off / bsize < fileSlots fin :=
  lt_fileSlots.mpr (Nat.lt_of_le_of_lt (Nat.div_mul_le_self off bsize) hoff)

theorem add_sub_mod_div (off : ℕ) : (off + (bsize - off % bsize)) / bsize = off / bsize + 1 := by
  unfold bsize
  omega

variable {owner : ℕ × ℕ → Option ℕ} {data : Block}

theorem Accounted.blockAt_of_wrote {i bn : ℕ}
    (h : Accounted g (withFile i owner (ip.refs s.cache)) s) (hbn : bn < maxfile)
    (hne : ip.blockAt s.cache bn ≠ 0) (hwrote : s.Wrote (ip.blockAt s.cache bn) data s') :
    ip.blockAt s'.cache = ip.blockAt s.cache := by
  refine Dinode.blockAt_congr (fun _ => rfl) fun hind => ?_
  obtain ⟨b, hb, hused⟩ := h.indirect hind
  refine h.ok.cache_of_wrote hwrote ?_ ?_
  · rw [hb]
    exact hused.1.plain.not_contains
  · intro heq
    rw [← Dinode.blockAt_maxfile ip.toDinode s.cache] at heq
    exact absurd (h.blockAt_inj hne heq.symm) (Nat.ne_of_lt hbn)

variable {addr : Sector} {s₁ : Fs}

theorem Writing.wrote {m : ℕ} (h : Writing g s₀ ip₀ fin count off ip s) (hoff : off < fin)
    (hfin : fin ≤ maxfile * bsize) (hm : m ≤ bsize - off % bsize)
    (hmapped : Mapped g ip₀.inum.toNat (refs g s₀) count s ip (off / bsize) addr ip' s₁)
    (hwrote : s₁.Wrote addr data s') :
    Writing g s₀ ip₀ fin (max count (off / bsize + 1)) (off + m) ip' s' := by
  have hmax := Nat.lt_of_lt_of_le (div_lt_fileSlots hoff) (fileSlots_le.mpr hfin)
  have hlast := div_lt_fileSlots hoff
  have haddr := hmapped.blockAt_addr hmax
  have hne : ip'.blockAt s₁.cache (off / bsize) ≠ 0 := haddr.symm ▸ hmapped.ne_zero
  have hplain := hmapped.plain hmax
  have hblockAt := hmapped.accounted.blockAt_of_wrote hmax hne (haddr.symm ▸ hwrote)
  have hrefs : ip'.refs s'.cache = ip'.refs s₁.cache := by
    funext p
    rw [Dinode.refs, hblockAt, Dinode.refs]
  have hcount := h.count_ge
  have hcount' := h.count_le
  refine ⟨?_, h.region_eq, ?_, ?_, by omega, by omega, ?_, ?_, ?_, ?_, ?_⟩
  · rw [hrefs]
    exact hmapped.accounted.wrote hwrote hplain
  · obtain ⟨hle, hslots, hind⟩ := hmapped.shaped
    refine ⟨hle, ?_, hind⟩
    rw [hblockAt]
    exact hslots
  · have hdiv := Nat.div_add_mod off bsize
    have hmod : off % bsize < bsize := Nat.mod_lt _ (by decide)
    refine Nat.le_trans ?_ (Nat.mul_le_mul_right bsize (Nat.le_max_right _ _))
    rw [Nat.add_mul, Nat.mul_comm, Nat.one_mul]
    omega
  · rw [hwrote.freeBlocks_eq hmapped.accounted.ok hplain, hmapped.free]
    exact h.free
  · intro hle
    have hin : off / bsize < count := by
      have hslots : fileSlots fin ≤ fileSlots ip₀.size.toNat := by
        rw [fileSlots_le]
        exact Nat.le_trans hle (fileSlots_le.mp (Nat.le_refl _))
      omega
    rw [(hmapped.same hin).1]
    exact h.same hle
  · exact Inode.setAddrs_trans h.fields hmapped.fields
  · rw [hwrote.busy_eq, hmapped.busy_eq, h.busy_eq]
  · refine (h.kept.trans (hmapped.kept hmax)).trans fun sector hsector => ?_
    have hforeign := hmapped.accounted.ne_of_foreign hsector (off / bsize)
    rw [haddr] at hforeign
    exact hmapped.accounted.ok.cache_of_wrote hwrote hsector.plain.not_contains hforeign

def Fs.fileByte (s : Fs) (d : Dinode) (o : ℕ) : BitVec 8 :=
  (s.cache (d.blockAt s.cache (o / bsize))).byte (o % bsize)

/-- The bytes of the file while a write from `start` on has come to `off`: those written are those
of `src`, and the others are as they were. -/
structure Stored (g : Geometry) (s₀ : Fs) (ip₀ : Inode) (src : ℕ → BitVec 8)
    (start count off : ℕ) (ip : Inode) (s : Fs) : Prop where
  bytes : ∀ o, o / bsize < count → s.fileByte ip.toDinode o =
    if start ≤ o ∧ o < off then src (o - start)
    else if o / bsize < fileSlots ip₀.size.toNat then s₀.fileByte ip₀.toDinode o else 0
  free : blocksFor count + (freeBlocks g s).card =
    blocksFor (fileSlots ip₀.size.toNat) + (freeBlocks g s₀).card

variable {src : ℕ → BitVec 8}

theorem byte_memmove {first m k : ℕ} (hk : k < bsize) : (data.memmove first m src).byte k =
      if first ≤ k ∧ k < first + m then src (k - first) else data.byte k := by
  simp only [Bytes.byte, dif_pos hk, Bytes.memmove]

/-- A block that a file keeps is neither another one of its blocks nor its indirect block. -/
theorem Accounted.other_block {i p bn : ℕ} {d d' : Dinode}
    (hacc : Accounted g (withFile i owner (d.refs s.cache)) s)
    (hacc' : Accounted g (withFile i owner (d'.refs s₁.cache)) s₁) (hp : p < maxfile)
    (hne : p ≠ bn) (hslot : d'.blockAt s₁.cache p = d.blockAt s.cache p)
    (hzero : d.blockAt s.cache p ≠ 0) :
    Plain g (d.blockAt s.cache p) ∧ d.blockAt s.cache p ≠ d'.blockAt s₁.cache bn ∧
      d.blockAt s.cache p ≠ d'.addr ndirect := by
  obtain ⟨b, hb, -, hused⟩ := hacc.exists_block hzero
  refine ⟨hb ▸ hused.1.plain, ?_, ?_⟩
  · rw [← hslot] at hzero ⊢
    exact fun heq => hne (hacc'.blockAt_inj hzero heq)
  · rw [← Dinode.blockAt_maxfile d' s₁.cache, ← hslot]
    rw [← hslot] at hzero
    exact fun heq => Nat.ne_of_lt hp (hacc'.blockAt_inj hzero heq)

theorem Mapped.fileByte_of_ne {i bn : ℕ} {o : ℕ}
    (hmapped : Mapped g i owner count s ip bn addr ip' s₁)
    (hacc : Accounted g (withFile i owner (ip.refs s.cache)) s)
    (hshaped : Shaped ip.toDinode s.cache count) (hmax : bn < maxfile)
    (hwrote : s₁.Wrote addr data s') (ho : o / bsize < count) (hne : o / bsize ≠ bn) :
    s'.fileByte ip'.toDinode o = s.fileByte ip.toDinode o := by
  have hp : o / bsize < maxfile := Nat.lt_of_lt_of_le ho hshaped.count_le
  have haddr := hmapped.blockAt_addr hmax
  have hslot : ip'.blockAt s₁.cache (o / bsize) = ip.blockAt s.cache (o / bsize) := by
    rw [hmapped.slots_eq _ hp, Function.update_of_ne hne]
  have hblockAt := hmapped.accounted.blockAt_of_wrote hmax (haddr.symm ▸ hmapped.ne_zero)
    (haddr.symm ▸ hwrote)
  obtain ⟨hplain, hother, hindirect⟩ := hacc.other_block hmapped.accounted hp hne hslot
    ((hshaped.slots _ hp).mpr ho)
  rw [haddr] at hother
  rw [Fs.fileByte, hblockAt, hslot, hmapped.accounted.ok.cache_of_wrote hwrote
    hplain.not_contains hother, hmapped.frame _ hplain hother hindirect, Fs.fileByte]

theorem Mapped.fileByte_of_eq {i bn m : ℕ} {first o : ℕ}
    (hmapped : Mapped g i owner count s ip bn addr ip' s₁) (hmax : bn < maxfile)
    (hwrote : s₁.Wrote addr ((s₁.cache addr).memmove first m src) s') (ho : o / bsize = bn) :
    s'.fileByte ip'.toDinode o =
      if first ≤ o % bsize ∧ o % bsize < first + m then src (o % bsize - first)
      else if bn < count then s.fileByte ip.toDinode o else 0 := by
  have haddr := hmapped.blockAt_addr hmax
  have hblockAt := hmapped.accounted.blockAt_of_wrote hmax (haddr.symm ▸ hmapped.ne_zero)
    (haddr.symm ▸ hwrote)
  rw [Fs.fileByte, hblockAt, ho, haddr, hmapped.accounted.ok.cache_self hwrote
    (hmapped.plain hmax).not_contains, byte_memmove (Nat.mod_lt _ (by decide))]
  congr 1
  by_cases hin : bn < count
  · obtain ⟨hip, hs⟩ := hmapped.same hin
    rw [if_pos hin, Fs.fileByte, ho, ← hip, ← hs, haddr]
  · rw [if_neg hin, hmapped.zero (Nat.le_of_not_lt hin)]
    simp [Bytes.byte]

theorem mem_block_iff {m o : ℕ} (hm : m ≤ bsize - off % bsize) :
    off ≤ o ∧ o < off + m ↔ o / bsize = off / bsize ∧ off % bsize ≤ o % bsize ∧
      o % bsize < off % bsize + m := by
  unfold bsize at *
  omega

theorem mod_sub_mod {o : ℕ} (heq : o / bsize = off / bsize) :
    o % bsize - off % bsize = o - off := by
  unfold bsize at *
  omega

theorem Stored.step {i m start : ℕ} {src src' : ℕ → BitVec 8}
    (h : Stored g s₀ ip₀ src start count off ip s)
    (hmapped : Mapped g i owner count s ip (off / bsize) addr ip' s₁)
    (hacc : Accounted g (withFile i owner (ip.refs s.cache)) s)
    (hshaped : Shaped ip.toDinode s.cache count) (hmax : off / bsize < maxfile)
    (hcount : fileSlots ip₀.size.toNat ≤ count) (hoff : off ≤ count * bsize) (hstart : start ≤ off)
    (hm : m ≤ bsize - off % bsize) (hsrc : ∀ j, src' j = src (off - start + j))
    (hwrote : s₁.Wrote addr ((s₁.cache addr).memmove (off % bsize) m src') s') :
    Stored g s₀ ip₀ src start (max count (off / bsize + 1)) (off + m) ip' s'  where
  free := by
    rw [hwrote.freeBlocks_eq hmapped.accounted.ok (hmapped.plain hmax), hmapped.free, h.free]
  bytes o ho := by
    by_cases hnew : off ≤ o ∧ o < off + m
    · obtain ⟨heq, hfrom, hto⟩ := (mem_block_iff hm).mp hnew
      rw [hmapped.fileByte_of_eq hmax hwrote heq, if_pos ⟨hfrom, hto⟩, if_pos (by omega), hsrc,
        mod_sub_mod heq]
      congr 1
      omega
    · have hrange : (start ≤ o ∧ o < off + m) = (start ≤ o ∧ o < off) := by
        rw [eq_iff_iff]
        omega
      simp only [hrange]
      by_cases heq : o / bsize = off / bsize
      · rw [hmapped.fileByte_of_eq hmax hwrote heq,
          if_neg fun hin => hnew ((mem_block_iff hm).mpr ⟨heq, hin⟩)]
        by_cases hin : off / bsize < count
        · rw [if_pos hin]
          exact h.bytes o (heq ▸ hin)
        · have hge : count * bsize ≤ o :=
            (Nat.le_div_iff_mul_le (by decide)).mp (heq ▸ Nat.le_of_not_lt hin)
          rw [if_neg hin, if_neg (by omega), if_neg (by omega)]
      · have hbn : off / bsize ≤ count := Nat.div_le_of_le_mul (Nat.mul_comm _ _ ▸ hoff)
        have hlt : o / bsize < count := by omega
        rw [hmapped.fileByte_of_ne hacc hshaped hmax hwrote hlt heq]
        exact h.bytes o hlt

/-! ## The sectors of a write -/

/-- What is logged when the file blocks from `first` to before `last` are written: the blocks of
them in place, the blocks that are allocated, with their bits, and the indirect block if the
file has one and a new block goes into it. -/
def writeSectors (g : Geometry) (s : Fs) (ip : Inode) (first last : ℕ) : Finset Sector :=
  s.log.sectors ∪
    (Finset.Ico first (min last (fileSlots ip.size.toNat))).image (ip.blockAt s.cache) ∪
    allocSectors g s (blocksFor last - blocksFor (fileSlots ip.size.toNat)) ∪
    if ndirect < fileSlots ip.size.toNat ∧ fileSlots ip.size.toNat < last then {ip.addr ndirect}
    else ∅

section Sectors

variable {first last last' k bn : ℕ} {x : Sector}

theorem mem_writeSectors : x ∈ writeSectors g s ip first last ↔ x ∈ s.log.sectors ∨
    (∃ p, (first ≤ p ∧ p < last ∧ p < fileSlots ip.size.toNat) ∧ ip.blockAt s.cache p = x) ∨
    x ∈ allocSectors g s (blocksFor last - blocksFor (fileSlots ip.size.toNat)) ∨
    (ndirect < fileSlots ip.size.toNat ∧ fileSlots ip.size.toNat < last) ∧
      x = ip.addr ndirect := by
  simp only [writeSectors, Finset.mem_union, Finset.mem_image, Finset.mem_Ico, lt_min_iff,
    or_assoc]
  split <;> simp [*]

theorem writeSectors_mono (h : last ≤ last') :
    writeSectors g s ip first last ⊆ writeSectors g s ip first last' := by
  intro x hx
  rw [mem_writeSectors] at hx ⊢
  refine hx.imp_right (Or.imp ?_ (Or.imp ?_ ?_))
  · rintro ⟨p, hp, rfl⟩
    exact ⟨p, by omega, rfl⟩
  · intro hx
    exact allocSectors_mono (Nat.sub_le_sub_right (blocksFor_mono h) _) hx
  · rintro ⟨hind, rfl⟩
    exact ⟨by omega, rfl⟩

theorem sectors_subset_writeSectors : s.log.sectors ⊆ writeSectors g s ip first last :=
  fun _ hx => mem_writeSectors.mpr (Or.inl hx)

/-- The log on the way of a write from block `first` on, with the blocks before `k` written: what
was to be allocated then and has not been is still to be allocated. -/
structure Charging (g : Geometry) (s₀ : Fs) (ip₀ : Inode) (first count k : ℕ) (ip : Inode)
    (s : Fs) : Prop where
  count_eq : count = max (fileSlots ip₀.size.toNat) k
  slots_eq : ∀ p < fileSlots ip₀.size.toNat, ip.blockAt s.cache p = ip₀.blockAt s₀.cache p
  alloc : ∀ j, allocSectors g s j ⊆
    allocSectors g s₀ (j + (blocksFor count - blocksFor (fileSlots ip₀.size.toNat)))
  indirect : ndirect < count →
    ndirect < fileSlots ip₀.size.toNat ∧ ip.addr ndirect = ip₀.addr ndirect ∨
    ip.addr ndirect ∈ allocSectors g s₀ (blocksFor count - blocksFor (fileSlots ip₀.size.toNat))
  sectors : s.log.sectors ⊆ writeSectors g s₀ ip₀ first k

namespace Charging

theorem start (hfirst : first ≤ fileSlots ip.size.toNat) :
    Charging g s ip first (fileSlots ip.size.toNat) first ip s where
  count_eq := (Nat.max_eq_left hfirst).symm
  slots_eq _ _ := rfl
  alloc j := allocSectors_mono (Nat.le_add_right j _)
  indirect hlt := Or.inl ⟨hlt, rfl⟩
  sectors := sectors_subset_writeSectors

variable (h : Charging g s₀ ip₀ first count k ip s)

include h

theorem alloc_subset (hbn : count = bn) : allocSectors g s (newBlocks count bn) ⊆
    allocSectors g s₀ (blocksFor (bn + 1) - blocksFor (fileSlots ip₀.size.toNat)) := by
  have hcount := h.count_eq
  have hold := blocksFor_mono (by omega : fileSlots ip₀.size.toNat ≤ count)
  have hnew := blocksFor_mono (by omega : count ≤ bn + 1)
  refine (h.alloc _).trans (allocSectors_mono ?_)
  rw [newBlocks, Nat.max_eq_right (by omega)]
  omega

/-- While `bmap` looks for block `bn`, no sector but those of the blocks up to it is logged. -/
theorem bmap_subset (hk : k ≤ bn) (hbn : bn ≤ count) :
    s.log.sectors ∪ bmapSectors g s ip count bn ⊆ writeSectors g s₀ ip₀ first (bn + 1) := by
  have hcount := h.count_eq
  refine Finset.union_subset (h.sectors.trans (writeSectors_mono (by omega))) fun x hx => ?_
  rw [mem_writeSectors]
  by_cases hin : bn < count
  · rw [bmapSectors, if_pos hin] at hx
    exact absurd hx (Finset.notMem_empty x)
  · rw [bmapSectors, if_neg hin, Finset.mem_union] at hx
    obtain hx | hx := hx
    · exact Or.inr (Or.inr (Or.inl (h.alloc_subset (by omega) hx)))
    · obtain ⟨hlt, hx⟩ : ndirect < count ∧ x = ip.addr ndirect := by
        split at hx
        · next hlt => exact ⟨hlt, Finset.mem_singleton.mp hx⟩
        · exact absurd hx (Finset.notMem_empty x)
      obtain ⟨hold, heq⟩ | hmem := h.indirect hlt
      · exact Or.inr (Or.inr (Or.inr ⟨by omega, hx.trans heq⟩))
      · refine Or.inr (Or.inr (Or.inl (hx ▸ allocSectors_mono ?_ hmem)))
        exact Nat.sub_le_sub_right (blocksFor_mono (by omega)) _

variable {i : ℕ} (hmapped : Mapped g i owner count s ip bn addr ip' s₁)

include hmapped

theorem addr_mem (hfirst : first ≤ bn) (hk : k ≤ bn) (hbn : bn ≤ count) (hmax : bn < maxfile) :
    addr ∈ writeSectors g s₀ ip₀ first (bn + 1) := by
  have hcount := h.count_eq
  rw [mem_writeSectors]
  by_cases hin : bn < count
  · refine Or.inr (Or.inl ⟨bn, by omega, ?_⟩)
    obtain ⟨rfl, rfl⟩ := hmapped.same hin
    rw [← h.slots_eq bn (by omega), hmapped.blockAt_addr hmax]
  · exact Or.inr (Or.inr (Or.inl (h.alloc_subset (by omega) (hmapped.new (by omega)))))

theorem step (hfirst : first ≤ bn) (hk : k ≤ bn) (hbn : bn ≤ count) (hmax : bn < maxfile)
    (hwrote : s₁.Wrote addr data s') :
    Charging g s₀ ip₀ first (max count (bn + 1)) (bn + 1) ip' s' := by
  have hcount := h.count_eq
  have haddr := hmapped.blockAt_addr hmax
  have hblockAt := hmapped.accounted.blockAt_of_wrote hmax (haddr.symm ▸ hmapped.ne_zero)
    (haddr.symm ▸ hwrote)
  have hold := blocksFor_mono (by omega : fileSlots ip₀.size.toNat ≤ count)
  have hnew := blocksFor_mono (Nat.le_max_left count (bn + 1))
  have hsum : newBlocks count bn + (blocksFor count - blocksFor (fileSlots ip₀.size.toNat)) =
      blocksFor (max count (bn + 1)) - blocksFor (fileSlots ip₀.size.toNat) := by
    unfold newBlocks
    omega
  refine ⟨by omega, fun p hp => ?_, fun j => ?_, fun hlt => ?_, ?_⟩
  · have hslots := hmapped.shaped.count_le
    rw [hblockAt, ← h.slots_eq p hp, hmapped.slots_eq p (by omega)]
    by_cases hpn : p = bn
    · obtain ⟨rfl, rfl⟩ := hmapped.same (by omega)
      rw [hpn, Function.update_self, haddr]
    · rw [Function.update_of_ne hpn]
  · rw [allocSectors_congr (hwrote.freeBlocks_eq hmapped.accounted.ok (hmapped.plain hmax)),
      ← hsum, ← Nat.add_assoc]
    exact (hmapped.alloc j).trans (h.alloc _)
  · rw [← hsum]
    obtain ⟨hlt, heq⟩ | hmem := hmapped.indirect hlt
    · rw [heq]
      exact (h.indirect hlt).imp_right fun hmem => allocSectors_mono (Nat.le_add_left _ _) hmem
    · exact Or.inr (h.alloc _ hmem)
  · rw [hwrote.sectors_eq, Finset.insert_subset_iff]
    exact ⟨h.addr_mem hmapped hfirst hk hbn hmax, hmapped.sectors.trans (h.bmap_subset hk hbn)⟩

end Charging

/-- The log and the buffers, as far as a write from block `first` to the offset `fin` asks for
them.  The last `log_write` is that of the inode if the file grows, and that of the last block
otherwise. -/
structure Charge.Writes (charge : Charge) (g : Geometry) (s : Fs) (ip : Inode) (first fin : ℕ) :
    Prop where
  log : (writeSectors g s ip first (fileSlots fin - 1)).card ≤ charge.log
  grown : ip.size.toNat < fin → (writeSectors g s ip first (fileSlots fin)).card ≤ charge.log
  buffers : (writeSectors g s ip first (fileSlots fin)).card ≤ charge.buffers

end Sectors

section Loop

variable {first k start m : ℕ} {src src' : ℕ → BitVec 8}

theorem writeBlock_meets (h : Writing g s₀ ip₀ fin count off ip s)
    (hstored : Stored g s₀ ip₀ src start count off ip s)
    (hcharging : Charging g s₀ ip₀ first count k ip s) (hoff : off < fin)
    (hfin : fin ≤ maxfile * bsize) (hstart : start ≤ off) (hm : m ≤ bsize - off % bsize)
    (hsrc : ∀ j, src' j = src (off - start + j)) (hfirst : first ≤ off / bsize)
    (hk : k ≤ off / bsize) (hcharge : charge.Writes g s₀ ip₀ first fin) :
    Meets (Allowed s₀.log charge)
      (fun r => Writing g s₀ ip₀ fin (max count (off / bsize + 1)) (off + m) r.1 r.2 ∧
        Stored g s₀ ip₀ src start (max count (off / bsize + 1)) (off + m) r.1 r.2 ∧
        Charging g s₀ ip₀ first (max count (off / bsize + 1)) (off / bsize + 1) r.1 r.2)
      (s.writeBlock ip src' off m) := by
  have hbn : off / bsize ≤ count := Nat.div_le_of_le_mul (Nat.mul_comm _ _ ▸ h.off_le)
  have hlast := div_lt_fileSlots hoff
  have hmax := Nat.lt_of_lt_of_le hlast (fileSlots_le.mpr hfin)
  have hfree : blocksFor (max count (off / bsize + 1)) ≤
      blocksFor count + (freeBlocks g s).card := by
    have hcount := h.count_le
    exact Nat.le_trans (blocksFor_mono (by omega)) h.free
  have hgrows : count ≤ off / bsize → ip₀.size.toNat < fin := by
    intro hle
    have hsize := fileSlots_le.mp (h.count_ge.trans hle)
    have hdiv := Nat.div_mul_le_self off bsize
    omega
  have hend : writeSectors g s₀ ip₀ first _ ⊆ writeSectors g s₀ ip₀ first _ :=
    writeSectors_mono hlast
  have hbmap_subset := (hcharging.bmap_subset hk hbn).trans hend
  have hbmap : Meets (Allowed s.log charge) _ (s.bmap ip (off / bsize)) :=
    bmap_meets h.accounted h.shaped hbn hmax hfree
      (fun hout => (Finset.card_le_card hbmap_subset).trans (hcharge.grown (hgrows hout)))
      ((Finset.card_le_card hbmap_subset).trans hcharge.buffers)
  rw [h.allowed_eq] at hbmap
  refine Meets.bind hbmap ?_
  rintro ⟨addr, ip', s₁⟩ (hmapped : Mapped _ _ _ _ _ _ _ addr ip' s₁)
  have hplain := hmapped.plain hmax
  have hallowed : Allowed s₁.log charge = Allowed s₀.log charge :=
    Allowed.congr (hmapped.accounted.ok.region_eq.trans h.region_eq.symm)
      (hmapped.busy_eq.trans h.busy_eq)
  have hsectors := hmapped.sectors.trans hbmap_subset
  have hinsert := Finset.insert_subset
    (hend (hcharging.addr_mem hmapped hfirst hk hbn hmax)) hsectors
  have hlog : s₁.log.sectors.card ≤ charge.log := by
    by_cases hin : off / bsize < count
    · rw [(hmapped.same hin).2]
      exact (Finset.card_le_card (hcharging.sectors.trans
        (writeSectors_mono (by omega)))).trans hcharge.log
    · exact (Finset.card_le_card hsectors).trans (hcharge.grown (hgrows (by omega)))
  rw [← hallowed]
  refine Meets.bind (Fs.bufcacheRead_nil_meets
    ((Finset.card_le_card hsectors).trans hcharge.buffers)) ?_
  rintro _ rfl
  refine Meets.bind (hmapped.accounted.ok.logWrite_single_meets hplain.not_contains hlog
    ((Finset.card_le_card hinsert).trans hcharge.buffers) _) fun s₂ hwrote => ?_
  exact ⟨h.wrote hoff hfin hm hmapped hwrote, hstored.step hmapped h.accounted h.shaped hmax
    h.count_ge h.off_le hstart hm hsrc hwrote, hcharging.step hmapped hfirst hk hbn hmax hwrote⟩

theorem writeBlocks_meets {len tot : ℕ} (h : Writing g s₀ ip₀ fin count off ip s)
    (hstored : Stored g s₀ ip₀ src start count off ip s)
    (hcharging : Charging g s₀ ip₀ first count k ip s) (hstart : off = start + tot)
    (hfin : fin ≤ maxfile * bsize) (hlen : off + (len - tot) = fin) (hfirst : first ≤ off / bsize)
    (hk : tot < len → k ≤ off / bsize) (hk_le : k ≤ fileSlots fin)
    (hcharge : charge.Writes g s₀ ip₀ first fin) : Meets (Allowed s₀.log charge)
      (fun r => r.1 = fin ∧ r.2.2.log.sectors ⊆ writeSectors g s₀ ip₀ first (fileSlots fin) ∧
        ∃ count, Writing g s₀ ip₀ fin count fin r.2.1 r.2.2 ∧
          Stored g s₀ ip₀ src start count fin r.2.1 r.2.2)
      (s.writeBlocks ip src len tot off) := by
  induction hrest : len - tot using Nat.strong_induction_on
    generalizing s ip tot off count k with
  | _ rest ih =>
    rw [Fs.writeBlocks]
    by_cases htot : tot < len
    · rw [if_pos htot]
      have hmod : off % bsize < bsize := Nat.mod_lt _ (by decide)
      have hoff : off < fin := by omega
      have hlast := div_lt_fileSlots hoff
      refine Meets.bind (writeBlock_meets h hstored hcharging hoff hfin (by omega)
        (Nat.min_le_right _ _) (fun j => by rw [hstart, Nat.add_sub_cancel_left]) hfirst
        (hk htot) hcharge) ?_
      rintro ⟨ip', s'⟩ ⟨h', hstored', hcharging'⟩
      have hnext : off / bsize ≤ (off + min (len - tot) (bsize - off % bsize)) / bsize :=
        Nat.div_le_div_right (Nat.le_add_right _ _)
      refine ih _ ?_ h' hstored' hcharging' (by omega) ?_ (hfirst.trans hnext) ?_ hlast rfl
      · omega
      · omega
      · intro hmore
        rw [Nat.min_eq_right (by omega), add_sub_mod_div]
    · rw [if_neg htot]
      have hoff : off = fin := by omega
      subst hoff
      exact ⟨rfl, hcharging.sectors.trans (writeSectors_mono hk_le), count, h, hstored⟩

end Loop

/-! ## `inode_write` -/

def EnoughFree (g : Geometry) (s : Fs) (ip : Inode) (off n : BitVec 32) : Prop :=
  off.toNat + n.toNat ≤ maxfile * bsize →
    blocksFor (max (fileSlots ip.size.toNat) (fileSlots (off.toNat + n.toNat))) ≤
      blocksFor (fileSlots ip.size.toNat) + (freeBlocks g s).card

instance (g : Geometry) (s : Fs) (ip : Inode) (off n : BitVec 32) :
    Decidable (EnoughFree g s ip off n) := by
  unfold EnoughFree
  infer_instance

theorem Writing.start {off n : BitVec 32} (h : Consistent g s) (hip : Synced g s ip)
    (hoff : off.toNat ≤ ip.size.toNat) (hmax : off.toNat + n.toNat ≤ maxfile * bsize)
    (hfree : EnoughFree g s ip off n) :
    Writing g s ip (off.toNat + n.toNat) (fileSlots ip.size.toNat) off.toNat ip s where
  accounted := h.start hip
  region_eq := h.accounted.ok.region_eq
  shaped := h.shaped_inode hip
  off_le := Nat.le_trans hoff (fileSlots_le.mp (Nat.le_refl _))
  count_ge := Nat.le_refl _
  count_le := Nat.le_max_left _ _
  free := hfree hmax
  same _ := rfl
  fields := rfl
  busy_eq := rfl
  kept _ _ := rfl

theorem Stored.start (start : ℕ) :
    Stored g s ip src start (fileSlots ip.size.toNat) start ip s  where
  bytes o ho := by rw [if_neg (by omega), if_pos ho]
  free := rfl

theorem Writing.count_within (h : Writing g s₀ ip₀ fin count off ip s)
    (hfin : fin ≤ ip₀.size.toNat) : count = fileSlots ip₀.size.toNat := by
  have hslots : fileSlots fin ≤ fileSlots ip₀.size.toNat := by
    rw [fileSlots_le]
    exact Nat.le_trans hfin (fileSlots_le.mp (Nat.le_refl _))
  have hge := h.count_ge
  have hle := h.count_le
  omega

theorem Writing.count_beyond (h : Writing g s₀ ip₀ fin count fin ip s)
    (hfin : ip₀.size.toNat ≤ fin) : count = fileSlots fin := by
  have hslots : fileSlots ip₀.size.toNat ≤ fileSlots fin := by
    rw [fileSlots_le]
    exact Nat.le_trans hfin (fileSlots_le.mp (Nat.le_refl _))
  have hge := fileSlots_le.mpr h.off_le
  have hle := h.count_le
  omega

theorem Accounted.blockAt_of_wrote_iblock {i j : ℕ}
    (h : Accounted g (withFile i owner (ip.refs s.cache)) s) (hj : j < g.ninodes)
    (hwrote : s.Wrote (iblock j) data s') : ip.blockAt s'.cache = ip.blockAt s.cache := by
  refine Dinode.blockAt_congr (fun _ => rfl) fun hind => ?_
  obtain ⟨b, hb, hused⟩ := h.indirect hind
  rw [hb]
  exact h.ok.cache_of_wrote hwrote hused.1.plain.not_contains (iblock_ne_ofNat hj hused.1).symm

theorem Accounted.fileByte_of_wrote_iblock {i j o : ℕ}
    (h : Accounted g (withFile i owner (ip.refs s.cache)) s) (hj : j < g.ninodes)
    (hne : ip.blockAt s.cache (o / bsize) ≠ 0) (hwrote : s.Wrote (iblock j) data s') :
    s'.fileByte ip.toDinode o = s.fileByte ip.toDinode o := by
  obtain ⟨b, hb, -, hused⟩ := h.exists_block hne
  rw [Fs.fileByte, h.blockAt_of_wrote_iblock hj hwrote, hb, h.ok.cache_of_wrote hwrote
    hused.1.plain.not_contains (iblock_ne_ofNat hj hused.1).symm, ← hb, Fs.fileByte]

theorem Writing.finish_within (h : Consistent g s₀) (hip : Synced g s₀ ip₀)
    (hw : Writing g s₀ ip₀ fin count fin ip s) (hfin : fin ≤ ip₀.size.toNat) :
    Consistent g s ∧ Elsewhere g ip₀.inum.toNat s₀ s ∧ Synced g s ip := by
  obtain rfl := hw.same hfin
  have hcount := hw.count_within hfin
  have helse := hw.kept.elsewhere h.accounted
  have hdinode := (hw.kept.dinode_eq hip.inum_lt).trans hip.dinode_eq
  have hsynced : Synced g s ip := ⟨hip.inum_lt, hdinode, hip.allocated⟩
  refine ⟨h.of_elsewhere helse hw.accounted (fun p => ?_) fun _ => ?_, helse, hsynced⟩
  · rw [refs, if_pos hsynced.inodeAllocated, hdinode]
  · rw [hdinode, ← hcount]
    exact hw.shaped

theorem Writing.finish_beyond (h : Consistent g s₀) (hip : Synced g s₀ ip₀)
    (hw : Writing g s₀ ip₀ fin count fin ip s) (hfin : ip₀.size.toNat < fin)
    (hmax : fin ≤ maxfile * bsize)
    (hwrote : s.Wrote (iblock ip₀.inum.toNat) ({ ip with size := BitVec.ofNat 32 fin }.encode
      (s.cache (iblock ip₀.inum.toNat)) (ip₀.inum.toNat % ipb)) s') :
    Consistent g s' ∧ Elsewhere g ip₀.inum.toNat s₀ s' ∧
      Synced g s' { ip with size := BitVec.ofNat 32 fin } := by
  have hok := hw.accounted.ok
  have hinum : ip.inum = ip₀.inum := by rw [hw.fields, Inode.setAddrs]
  have htype : ip.type = ip₀.type := by rw [hw.fields, Inode.setAddrs]
  have hsize : (BitVec.ofNat 32 fin).toNat = fin := by
    rw [BitVec.toNat_ofNat, Nat.mod_eq_of_lt (Nat.lt_of_le_of_lt hmax (by decide))]
  have hcount := hw.count_beyond (Nat.le_of_lt hfin)
  have hdinode := hok.dinode_of_wrote hip.inum_lt hwrote
  have helse := hw.kept.elsewhere_of_wrote h.accounted hok hip.inum_lt hwrote
  have hblockAt : { ip with size := BitVec.ofNat 32 fin }.blockAt s'.cache =
      ip.blockAt s.cache :=
    hw.accounted.blockAt_of_wrote_iblock hip.inum_lt hwrote
  have hsynced : Synced g s' { ip with size := BitVec.ofNat 32 fin } :=
    ⟨hinum ▸ hip.inum_lt, hinum ▸ hdinode, htype ▸ hip.allocated⟩
  have halloc : InodeAllocated g s' ip₀.inum.toNat := hinum ▸ hsynced.inodeAllocated
  refine ⟨h.of_elsewhere helse (hw.accounted.wrote hwrote (plain_iblock hip.inum_lt))
    (fun p => ?_) fun _ => ?_, helse, hsynced⟩
  · rw [refs, if_pos halloc, hdinode, Dinode.refs, hblockAt, Dinode.refs]
  · rw [hdinode, hsize, ← hcount]
    obtain ⟨hle, hslots, hind⟩ := hw.shaped
    refine ⟨hle, ?_, hind⟩
    rw [hblockAt]
    exact hslots

/-- A write of `len` bytes at `off`. -/
structure Overwritten (g : Geometry) (s : Fs) (ip : Inode) (src : ℕ → BitVec 8) (off len : ℕ)
    (ip' : Inode) (s' : Fs) : Prop where
  fields : ip'.toDinode = { ip.toDinode with addrs := ip'.addrs, size := ip'.size }
  size_eq : ip'.size.toNat = max ip.size.toNat (off + len)
  bytes : ∀ o < ip'.size.toNat, s'.fileByte ip'.toDinode o =
    if off ≤ o ∧ o < off + len then src (o - off) else s.fileByte ip.toDinode o
  free : blocksFor (fileSlots ip'.size.toNat) + (freeBlocks g s').card =
    blocksFor (fileSlots ip.size.toNat) + (freeBlocks g s).card

theorem Stored.bytes_of_lt {start : ℕ} {o : ℕ} (h : Stored g s₀ ip₀ src start count fin ip s)
    (hstart : start ≤ ip₀.size.toNat) (hcount : fileSlots fin ≤ count)
    (hcount' : fileSlots ip₀.size.toNat ≤ count) (ho : o < max ip₀.size.toNat fin) :
    s.fileByte ip.toDinode o =
      if start ≤ o ∧ o < fin then src (o - start) else s₀.fileByte ip₀.toDinode o := by
  have hold : ∀ size, o < size → o / bsize < fileSlots size := fun size hlt =>
    div_lt_fileSlots hlt
  have hin : o / bsize < count := by
    obtain hlt | hlt := lt_max_iff.mp ho
    · exact Nat.lt_of_lt_of_le (hold _ hlt) hcount'
    · exact Nat.lt_of_lt_of_le (hold _ hlt) hcount
  rw [h.bytes o hin]
  by_cases hnew : start ≤ o ∧ o < fin
  · rw [if_pos hnew, if_pos hnew]
  · rw [if_neg hnew, if_neg hnew, if_pos (hold _ (by omega))]

theorem Stored.overwritten_within {start len : ℕ}
    (h : Stored g s₀ ip₀ src start count (start + len) ip s)
    (hw : Writing g s₀ ip₀ (start + len) count (start + len) ip s)
    (hfin : start + len ≤ ip₀.size.toNat) : Overwritten g s₀ ip₀ src start len ip s := by
  obtain rfl := hw.same hfin
  have hcount := hw.count_within hfin
  have hslots := fileSlots_le.mpr hw.off_le
  refine ⟨rfl, (Nat.max_eq_left hfin).symm, fun o ho => ?_, ?_⟩
  · exact h.bytes_of_lt (by omega) hslots hw.count_ge (Nat.lt_of_lt_of_le ho (Nat.le_max_left _ _))
  · rw [← hcount]
    exact h.free.trans (by rw [hcount])

theorem Stored.overwritten_beyond {start len : ℕ}
    (h : Stored g s₀ ip₀ src start count (start + len) ip s)
    (hw : Writing g s₀ ip₀ (start + len) count (start + len) ip s)
    (hi : ip₀.inum.toNat < g.ninodes) (hstart : start ≤ ip₀.size.toNat)
    (hfin : ip₀.size.toNat ≤ start + len) (hmax : start + len ≤ maxfile * bsize)
    (hwrote : s.Wrote (iblock ip₀.inum.toNat) data s') :
    Overwritten g s₀ ip₀ src start len { ip with size := BitVec.ofNat 32 (start + len) } s' := by
  have hcount := hw.count_beyond hfin
  have hsize : (BitVec.ofNat 32 (start + len)).toNat = start + len := by
    rw [BitVec.toNat_ofNat, Nat.mod_eq_of_lt (Nat.lt_of_le_of_lt hmax (by decide))]
  have hfields : ip.toDinode = { ip₀.toDinode with addrs := ip.addrs } := by
    rw [hw.fields, Inode.setAddrs]
  refine ⟨?_, ?_, fun o ho => ?_, ?_⟩
  · rw [hfields]
  · rw [hsize, Nat.max_eq_right hfin]
  · rw [hsize] at ho
    have hlt : o / bsize < count := hcount ▸ div_lt_fileSlots ho
    have hne : ip.blockAt s.cache (o / bsize) ≠ 0 :=
      (hw.shaped.slots _ (Nat.lt_of_lt_of_le hlt hw.shaped.count_le)).mpr hlt
    refine (hw.accounted.fileByte_of_wrote_iblock hi hne hwrote).trans ?_
    exact h.bytes_of_lt hstart (Nat.le_of_eq hcount.symm) hw.count_ge
      (Nat.lt_of_lt_of_le ho (Nat.le_max_right _ _))
  · rw [hsize, hwrote.freeBlocks_eq hw.accounted.ok (plain_iblock hi), ← hcount]
    exact h.free

def WriteFits (ip : Inode) (off len : BitVec 32) : Prop :=
  off.toNat ≤ ip.size.toNat ∧ off.toNat + len.toNat ≤ maxfile * bsize

def WriteOutcome (g : Geometry) (s : Fs) (ip : Inode) (src : ℕ → BitVec 8) (off len : BitVec 32)
    (r : ℤ × Inode × Fs) : Prop :=
  (r.2 = (ip, s) ∧ (ip.type ≠ tDev → r.1 = -1 ∧ ¬ WriteFits ip off len)) ∨
    (r.1 = len.toInt ∧ Overwritten g s ip src off.toNat len.toNat r.2.1 r.2.2)

/-- The write comes to `log_write`: it is neither empty nor refused, nor to a device. -/
def WriteLogs (ip : Inode) (off len : BitVec 32) : Prop :=
  ip.type ≠ tDev ∧ WriteFits ip off len ∧ 0 < len.toNat

instance (ip : Inode) (off len : BitVec 32) : Decidable (WriteLogs ip off len) := by
  unfold WriteLogs WriteFits
  infer_instance

/-- What a write asks of the log and of the buffers.  If the file grows, the inode is written back
at the end, and if not, the block written last is. -/
def writeCharge (g : Geometry) (s : Fs) (ip : Inode) (off len : BitVec 32) : Charge :=
  let first := off.toNat / bsize
  let last := fileSlots (off.toNat + len.toNat)
  if ¬ WriteLogs ip off len then ⟨0, s.log.sectors.card⟩
  else if ip.size.toNat < off.toNat + len.toNat then
    ⟨(writeSectors g s ip first last).card,
      (insert (iblock ip.inum.toNat) (writeSectors g s ip first last)).card⟩
  else ⟨(writeSectors g s ip first (last - 1)).card, (writeSectors g s ip first last).card⟩

section InodeWrite

variable {off len : BitVec 32} {devsw : ℕ → Devsw}

theorem writeCharge_writes (hlogs : WriteLogs ip off len) :
    (writeCharge g s ip off len).Writes g s ip (off.toNat / bsize) (off.toNat + len.toNat) := by
  rw [writeCharge, if_neg (not_not.mpr hlogs)]
  split
  · exact ⟨Finset.card_le_card (writeSectors_mono (Nat.sub_le _ 1)), fun _ => Nat.le_refl _,
      Finset.card_le_card (Finset.subset_insert _ _)⟩
  · next hwithin => exact ⟨Nat.le_refl _, fun hgrown => absurd hgrown hwithin, Nat.le_refl _⟩

theorem card_sectors_le_writeCharge :
    s.log.sectors.card ≤ (writeCharge g s ip off len).buffers := by
  by_cases hlogs : WriteLogs ip off len
  · exact (Finset.card_le_card sectors_subset_writeSectors).trans (writeCharge_writes hlogs).buffers
  · rw [writeCharge, if_pos hlogs]

theorem inodeWrite_of_device (devsw : ℕ → Devsw) (src : ℕ → BitVec 8) (s : Fs) {ip : Inode}
    (off n : BitVec 32) (hdev : ip.type = tDev) :
    ∃ r, s.inodeWrite devsw ip src off n = .ok (r, ip, s) ∧
      ((∀ major, (devsw major).write = none) → r = -1) := by
  unfold Fs.inodeWrite
  rw [if_pos hdev]
  cases hdriver : (ip.device devsw).bind Devsw.write with
  | none => exact ⟨-1, rfl, fun _ => rfl⟩
  | some write =>
    refine ⟨_, rfl, fun hnone => ?_⟩
    obtain ⟨device, hdevice, hwrite⟩ := Option.bind_eq_some_iff.mp hdriver
    obtain ⟨-, heq⟩ := Option.ite_none_left_eq_some.mp hdevice
    rw [← Option.some.inj heq, hnone] at hwrite
    cases hwrite

theorem writeFits_iff : WriteFits ip off len ↔ ¬ (ip.size < off ∨ off + len < off) ∧
    ¬ BitVec.ofNat 32 (maxfile * bsize) < off + len := by
  have hmaxfile : (BitVec.ofNat 32 (maxfile * bsize)).toNat = maxfile * bsize := rfl
  have hlt : maxfile * bsize < 2 ^ 32 := by decide
  have hlen := len.isLt
  rw [WriteFits, not_or, BitVec.not_lt, BitVec.not_lt, BitVec.not_lt, BitVec.le_def,
    BitVec.le_def, BitVec.le_def, hmaxfile, BitVec.toNat_add]
  constructor
  · rintro ⟨hoff, hend⟩
    rw [Nat.mod_eq_of_lt (by omega)]
    omega
  · rintro ⟨⟨hoff, hwrap⟩, hend⟩
    omega

theorem inodeWrite_refused (devsw : ℕ → Devsw) (src : ℕ → BitVec 8) (s : Fs)
    (hdev : ip.type ≠ tDev) (hnot : ¬ WriteFits ip off len) :
    s.inodeWrite devsw ip src off len = .ok (-1, ip, s) := by
  rw [writeFits_iff, not_and_or, not_not, not_not] at hnot
  unfold Fs.inodeWrite
  rw [if_neg hdev]
  by_cases hoff : ip.size < off ∨ off + len < off
  · rw [if_pos hoff]
    rfl
  · rw [if_neg hoff, if_pos (hnot.resolve_left hoff)]
    rfl

theorem inodeWrite_empty (devsw : ℕ → Devsw) (src : ℕ → BitVec 8) (s : Fs)
    (hdev : ip.type ≠ tDev) (hfits : WriteFits ip off len) (hlen : len.toNat = 0) :
    s.inodeWrite devsw ip src off len = .ok (len.toInt, ip, s) := by
  obtain ⟨hcheck, hmax⟩ := writeFits_iff.mp hfits
  unfold Fs.inodeWrite
  rw [if_neg hdev, if_neg hcheck, if_neg hmax, Fs.writeBlocks, if_neg (by omega)]
  exact if_neg (by omega)

/-- What a write that is not refused comes to. -/
structure Accepted (g : Geometry) (s : Fs) (ip : Inode) (src : ℕ → BitVec 8)
    (off len : BitVec 32) (r : ℤ × Inode × Fs) : Prop where
  settled : Consistent g r.2.2 ∧ Elsewhere g ip.inum.toNat s r.2.2 ∧ Synced g r.2.2 r.2.1
  slot : ip.SameSlot r.2.1
  value : r.1 = len.toInt
  overwritten : Overwritten g s ip src off.toNat len.toNat r.2.1 r.2.2
  card_le : r.2.2.log.sectors.card ≤ (writeCharge g s ip off len).buffers

theorem Writing.accepted (h : Consistent g s) (hip : Synced g s ip)
    (hlogs : WriteLogs ip off len)
    (hw : Writing g s ip (off.toNat + len.toNat) count (off.toNat + len.toNat) ip' s')
    (hstored : Stored g s ip src off.toNat count (off.toNat + len.toNat) ip' s')
    (hsectors : s'.log.sectors ⊆ writeSectors g s ip (off.toNat / bsize)
      (fileSlots (off.toNat + len.toNat))) :
    Meets (Allowed s.log (writeCharge g s ip off len)) (Accepted g s ip src off len)
      (if 0 < len.toNat ∧ ip'.size.toNat < off.toNat + len.toNat then do
        let s ← s'.inodeUpdate { ip' with size := BitVec.ofNat 32 (off.toNat + len.toNat) }
        return (len.toInt, { ip' with size := BitVec.ofNat 32 (off.toNat + len.toNat) }, s)
      else return (len.toInt, ip', s')) := by
  have hinum : ip'.inum = ip.inum := by rw [hw.fields, Inode.setAddrs]
  have hsize : ip'.size = ip.size := by rw [hw.fields, Inode.setAddrs]
  have hslot : ip.SameSlot ip' := Inode.sameSlot_of_setAddrs hw.fields
  obtain ⟨-, ⟨hoff, hfin⟩, hpos⟩ := id hlogs
  rw [hsize]
  by_cases hgrown : 0 < len.toNat ∧ ip.size.toNat < off.toNat + len.toNat
  · rw [if_pos hgrown]
    have hcharge : writeCharge g s ip off len = _ :=
      (if_neg (not_not.mpr hlogs)).trans (if_pos hgrown.2)
    have hi : ip'.inum.toNat < g.ninodes := hinum ▸ hip.inum_lt
    have hinsert := Finset.insert_subset_insert (iblock ip.inum.toNat) hsectors
    have hupdate : Meets (Allowed s'.log (writeCharge g s ip off len)) _
        (s'.inodeUpdate { ip' with size := BitVec.ofNat 32 (off.toNat + len.toNat) }) :=
      inodeUpdate_meets hw.accounted hi (hcharge ▸ Finset.card_le_card hsectors)
        (by rw [hcharge, hinum]; exact Finset.card_le_card hinsert)
    rw [hw.allowed_eq] at hupdate
    refine Meets.bind hupdate fun s'' hwrote => ?_
    rw [hinum] at hwrote
    refine ⟨hw.finish_beyond h hip hgrown.2 hfin hwrote, ?_, rfl, ?_, ?_⟩
    · rw [Inode.SameSlot, hslot]
    · exact hstored.overwritten_beyond hw hip.inum_lt hoff (Nat.le_of_lt hgrown.2) hfin hwrote
    · rw [hcharge, hwrote.sectors_eq]
      exact Finset.card_le_card hinsert
  · rw [if_neg hgrown]
    have hcharge : writeCharge g s ip off len = _ :=
      (if_neg (not_not.mpr hlogs)).trans (if_neg (by omega))
    refine ⟨hw.finish_within h hip (by omega), hslot, rfl, ?_, ?_⟩
    · exact hstored.overwritten_within hw (by omega)
    · rw [hcharge]
      exact Finset.card_le_card hsectors

theorem inodeWrite_accepted (devsw : ℕ → Devsw) (src : ℕ → BitVec 8) (h : Consistent g s)
    (hip : Synced g s ip) (hlogs : WriteLogs ip off len) (hfree : EnoughFree g s ip off len) :
    Meets (Allowed s.log (writeCharge g s ip off len)) (Accepted g s ip src off len)
      (s.inodeWrite devsw ip src off len) := by
  obtain ⟨hdev, hfits, -⟩ := id hlogs
  obtain ⟨hcheck, hmax⟩ := writeFits_iff.mp hfits
  have hslots : off.toNat / bsize ≤ fileSlots ip.size.toNat :=
    Nat.div_le_of_le_mul (Nat.mul_comm _ _ ▸ hfits.1.trans (fileSlots_le.mp (Nat.le_refl _)))
  have hblocks : off.toNat / bsize ≤ fileSlots (off.toNat + len.toNat) :=
    Nat.div_le_of_le_mul (Nat.mul_comm _ _ ▸
      (Nat.le_add_right _ _).trans (fileSlots_le.mp (Nat.le_refl _)))
  unfold Fs.inodeWrite
  rw [if_neg hdev, if_neg hcheck, if_neg hmax]
  refine Meets.bind (writeBlocks_meets (Writing.start h hip hfits.1 hfits.2 hfree)
    (Stored.start off.toNat) (Charging.start hslots) rfl hfits.2 rfl (Nat.le_refl _)
    (fun _ => Nat.le_refl _) hblocks (writeCharge_writes hlogs)) ?_
  rintro ⟨_, ip', s'⟩ ⟨rfl, hsectors, count, hw, hstored⟩
  exact hw.accepted h hip hlogs hstored hsectors

theorem Accepted.empty (h : Consistent g s) (hip : Synced g s ip) (hoff : off.toNat ≤ ip.size.toNat)
    (hlen : len.toNat = 0) : Accepted g s ip src off len (len.toInt, ip, s) where
  settled := ⟨h, ⟨fun _ _ _ => rfl, fun _ _ _ _ _ => rfl⟩, hip⟩
  slot := rfl
  value := rfl
  overwritten := by
    refine ⟨rfl, ?_, fun o _ => (if_neg (by omega)).symm, rfl⟩
    rw [hlen, Nat.add_zero, Nat.max_eq_left hoff]
  card_le := card_sectors_le_writeCharge

/-- **`inode_write`** with enough data blocks free. -/
theorem inodeWrite_bounded (devsw : ℕ → Devsw) (src : ℕ → BitVec 8)
    (h : Consistent g s) (hip : Synced g s ip)
    (hfree : ip.type ≠ tDev → WriteFits ip off len → EnoughFree g s ip off len) :
    Meets (fun e => WriteLogs ip off len ∧ Allowed s.log (writeCharge g s ip off len) e)
      (fun r => ((Consistent g r.2.2 ∧ Elsewhere g ip.inum.toNat s r.2.2 ∧
        Synced g r.2.2 r.2.1) ∧ ip.SameSlot r.2.1) ∧ WriteOutcome g s ip src off len r ∧
        r.2.2.log.sectors.card ≤ (writeCharge g s ip off len).buffers)
      (s.inodeWrite devsw ip src off len) := by
  have hsame : Elsewhere g ip.inum.toNat s s := ⟨fun _ _ _ => rfl, fun _ _ _ _ _ => rfl⟩
  by_cases hdev : ip.type = tDev
  · obtain ⟨r, hr, -⟩ := inodeWrite_of_device devsw src s off len hdev
    rw [hr]
    exact ⟨⟨⟨h, hsame, hip⟩, rfl⟩, Or.inl ⟨rfl, absurd hdev⟩, card_sectors_le_writeCharge⟩
  by_cases hfits : WriteFits ip off len
  · by_cases hlen : len.toNat = 0
    · rw [inodeWrite_empty devsw src s hdev hfits hlen]
      have hempty : Accepted g s ip src off len _ := .empty h hip hfits.1 hlen
      exact ⟨⟨hempty.settled, rfl⟩, Or.inr ⟨rfl, hempty.overwritten⟩, hempty.card_le⟩
    · have hlogs : WriteLogs ip off len := ⟨hdev, hfits, by omega⟩
      refine (inodeWrite_accepted devsw src h hip hlogs (hfree hdev hfits)).mono
        (fun e he => ⟨hlogs, he⟩) fun r hr => ?_
      exact ⟨⟨hr.settled, hr.slot⟩, Or.inr ⟨hr.value, hr.overwritten⟩, hr.card_le⟩
  · rw [inodeWrite_refused devsw src s hdev hfits]
    exact ⟨⟨⟨h, hsame, hip⟩, rfl⟩, Or.inl ⟨rfl, fun _ => ⟨rfl, hfits⟩⟩,
      card_sectors_le_writeCharge⟩

theorem inodeWrite_meets (h : Consistent g s) (hip : Synced g s ip)
    (hfree : WriteFits ip off len → EnoughFree g s ip off len) :
    Meets (fun e => WriteLogs ip off len ∧ Allowed s.log (writeCharge g s ip off len) e)
      (fun r => ((Consistent g r.2.2 ∧ Elsewhere g ip.inum.toNat s r.2.2 ∧
        Synced g r.2.2 r.2.1) ∧ ip.SameSlot r.2.1) ∧ WriteOutcome g s ip src off len r)
      (s.inodeWrite devsw ip src off len) :=
  (inodeWrite_bounded devsw src h hip fun _ => hfree).mono (fun _ h => h)
    fun _ hpost => ⟨hpost.1, hpost.2.1⟩

end InodeWrite

variable {devsw : ℕ → Devsw}

/-! ## `inode_read` -/

def Pinned (s : Fs) (e : Halt) : Prop := e = .noBuffers ∧ nbuf ≤ s.log.sectors.card

theorem bufcacheRead_pinned (sector : Sector) :
    Meets (Pinned s) (fun data => data = s.cache sector) (s.bufcacheRead [] sector) := by
  unfold Fs.bufcacheRead
  rw [if_neg List.not_mem_nil]
  split
  · next hfull =>
    rw [List.toFinset_nil, Finset.union_empty] at hfull
    exact ⟨rfl, hfull.2⟩
  · rfl

theorem entryAlloc_of_ne_zero {ind : Sector} {j : ℕ} (hne : (s.cache ind).word j ≠ 0) :
    Meets (Pinned s) (fun r => r = ((s.cache ind).word j, s)) (s.entryAlloc ind j) := by
  refine Meets.bind (bufcacheRead_pinned ind) ?_
  rintro _ rfl
  rw [if_neg hne]
  rfl

theorem bmap_of_lt {bn : ℕ} (hshaped : Shaped ip.toDinode s.cache count) (hbn : bn < count) :
    Meets (Pinned s) (fun r => r = (ip.blockAt s.cache bn, ip, s)) (s.bmap ip bn) := by
  have hmax := Nat.lt_of_lt_of_le hbn hshaped.count_le
  have hne := (hshaped.slots bn hmax).mpr hbn
  unfold Fs.bmap Fs.addrAlloc
  by_cases hlt : bn < ndirect
  · rw [Dinode.blockAt_of_lt hlt] at hne ⊢
    rw [if_pos hlt, if_neg hne]
    rfl
  · have hind := hshaped.indirect.mpr (by omega)
    rw [Dinode.blockAt_entry (by omega) hmax, Dinode.entry, if_neg hind] at hne ⊢
    rw [if_neg hlt, if_pos (by unfold maxfile at hmax; omega), if_neg hind, pure_bind]
    refine Meets.bind (entryAlloc_of_ne_zero hne) ?_
    rintro _ rfl
    rfl

theorem fileByte_piece {d : Dinode} {m : ℕ} (hm : m ≤ bsize - off % bsize) :
    ((List.range m).map fun j => (s.cache (d.blockAt s.cache (off / bsize))).byte
      (off % bsize + j)) = (List.range m).map fun j => s.fileByte d (off + j) := by
  refine List.map_congr_left fun j hj => ?_
  have hj : j < m := List.mem_range.mp hj
  have hdiv : (off + j) / bsize = off / bsize := by
    unfold bsize at *
    omega
  have hmod : (off + j) % bsize = off % bsize + j := by
    unfold bsize at *
    omega
  rw [Fs.fileByte, hdiv, hmod]

theorem readBlocks_meets {len tot : ℕ} {dst : List (BitVec 8)}
    (hshaped : Shaped ip.toDinode s.cache (fileSlots fin)) (hlen : off + (len - tot) ≤ fin) :
    Meets (Pinned s)
      (fun r => r = (dst ++
        (List.range (len - tot)).map (fun j => s.fileByte ip.toDinode (off + j)), ip, s))
      (s.readBlocks ip len tot off dst) := by
  induction hrest : len - tot using Nat.strong_induction_on generalizing tot off dst with
  | _ rest ih =>
    rw [Fs.readBlocks]
    by_cases htot : tot < len
    · rw [if_pos htot]
      have hmod : off % bsize < bsize := Nat.mod_lt _ (by decide)
      have hbn : off / bsize < fileSlots fin := div_lt_fileSlots (by omega)
      generalize hm : min (len - tot) (bsize - off % bsize) = m
      have hblock : Meets (Pinned s)
          (fun r => r = ((List.range m).map (fun j => s.fileByte ip.toDinode (off + j)), ip, s))
          (s.readBlock ip off m) := by
        refine Meets.bind (bmap_of_lt hshaped hbn) ?_
        rintro _ rfl
        refine Meets.bind (bufcacheRead_pinned _) ?_
        rintro _ rfl
        rw [fileByte_piece (by omega)]
        rfl
      refine Meets.bind hblock ?_
      rintro _ rfl
      refine (ih (len - (tot + m)) (by omega) (by omega) rfl).mono (fun _ h => h) ?_
      rintro _ rfl
      have hsplit : rest = m + (len - (tot + m)) := by omega
      rw [hsplit, List.range_add, List.map_append, List.map_map, List.append_assoc]
      simp only [Function.comp_def, Nat.add_assoc]
    · rw [if_neg htot, ← hrest, Nat.sub_eq_zero_of_le (Nat.le_of_not_lt htot)]
      exact congrArg (·, ip, s) (List.append_nil dst).symm

theorem inodeRead_within {off len : BitVec 32}
    (hshaped : Shaped ip.toDinode s.cache (fileSlots fin)) (hdev : ip.type ≠ tDev)
    (hfin : off.toNat + len.toNat ≤ fin) (hsize : off.toNat + len.toNat ≤ ip.size.toNat) :
    Meets (Pinned s)
      (fun r => r = (len.toInt,
        (List.range len.toNat).map fun j => s.fileByte ip.toDinode (off.toNat + j), ip, s))
      (s.inodeRead devsw ip off len) := by
  have hoff : ¬ (ip.size < off ∨ off + len < off) := by bv_omega
  have hlen : ¬ ip.size < off + len := by bv_omega
  unfold Fs.inodeRead
  rw [if_neg hdev, if_neg hoff, if_neg hlen]
  refine Meets.bind (readBlocks_meets hshaped (by omega)) ?_
  rintro _ rfl
  simp only [Nat.sub_zero, List.nil_append]
  rfl

/-- `inode_read` changes neither the file system nor the inode, and a read that ends within the
size of a file returns its bytes. -/
def ReadOutcome (s : Fs) (ip : Inode) (off len : BitVec 32)
    (r : ℤ × List (BitVec 8) × Inode × Fs) : Prop :=
  r.2.2 = (ip, s) ∧ (ip.type ≠ tDev → off.toNat + len.toNat ≤ ip.size.toNat →
    r.1 = len.toInt ∧
      r.2.1 = (List.range len.toNat).map fun j => s.fileByte ip.toDinode (off.toNat + j))

theorem inodeRead_of_shaped {off len : BitVec 32}
    (hshaped : Shaped ip.toDinode s.cache (fileSlots ip.size.toNat)) :
    Meets (Pinned s) (ReadOutcome s ip off len) (s.inodeRead devsw ip off len) := by
  unfold Fs.inodeRead
  by_cases hdev : ip.type = tDev
  · rw [if_pos hdev]
    cases (ip.device devsw).bind Devsw.read with
    | none => exact ⟨rfl, fun hne => absurd hdev hne⟩
    | some read => exact ⟨rfl, fun hne => absurd hdev hne⟩
  rw [if_neg hdev]
  by_cases hoff : ip.size < off ∨ off + len < off
  · rw [if_pos hoff]
    refine ⟨rfl, fun _ hend => ?_⟩
    exfalso
    bv_omega
  rw [if_neg hoff]
  obtain ⟨hsize, hwrap⟩ := not_or.mp hoff
  have hend : off.toNat + (if ip.size < off + len then ip.size - off else len).toNat ≤
      ip.size.toNat := by
    split
    · bv_omega
    · bv_omega
  refine Meets.bind (readBlocks_meets hshaped hend) ?_
  rintro _ rfl
  refine ⟨rfl, fun _ hwithin => ?_⟩
  have hlen : ¬ ip.size < off + len := by bv_omega
  simp only [if_neg hlen, Nat.sub_zero, List.nil_append, and_self]

/-- **`inode_read`.** It changes neither the file system nor the inode, and returns the bytes of
the file. -/
theorem inodeRead_meets {off len : BitVec 32} (h : Consistent g s) (hip : Synced g s ip) :
    Meets (Pinned s) (ReadOutcome s ip off len) (s.inodeRead devsw ip off len) :=
  inodeRead_of_shaped (h.shaped_inode hip)

theorem Elsewhere.fileByte_eq {i j o : ℕ} (helse : Elsewhere g i s s') (h : Consistent g s)
    (halloc : InodeAllocated g s j) (hne : j ≠ i)
    (ho : o / bsize < fileSlots (s.dinode j).size.toNat) :
    s'.fileByte (s'.dinode j) o = s.fileByte (s.dinode j) o := by
  have hshaped := h.shaped j halloc
  have hslot := (hshaped.slots _ (Nat.lt_of_lt_of_le ho hshaped.count_le)).mpr ho
  obtain ⟨b, hb⟩ := Option.ne_none_iff_exists'.mp (blockNumber_eq_none.not.mpr hslot)
  have href : refs g s (j, o / bsize) = some b := (if_pos halloc).trans hb
  rw [Fs.fileByte, helse.blockAt_eq hne halloc, blockNumber_eq_some hb,
    helse.block_eq j _ b hne href, ← blockNumber_eq_some hb, Fs.fileByte]

end Write

end MCertikos.FS
