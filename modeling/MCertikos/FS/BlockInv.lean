/-
# The layout of the disk and the block allocator

The disk is divided into the superblock, the inode blocks, the bitmap, the data blocks and the
log.
-/

import Mathlib.Data.Nat.Find
import MCertikos.FS.Block

namespace MCertikos.FS

open Math Function

/-- The division of a disk: boot block, superblock and inodes, `size / BPB + 1` blocks for the
bitmap, `nlog` at the end for the log, and the rest for data. -/
structure Geometry where
  size : ℕ
  ninodes : ℕ
  nlog : ℕ
  size_lt : size < 2 ^ 31
  nlog_pos : 0 < nlog
  layout : ninodes / ipb + 3 + (size / bpb + 1) + nlog ≤ size

namespace Geometry

variable (g : Geometry)

def dataStart : ℕ := g.ninodes / ipb + 3 + (g.size / bpb + 1)

def dataEnd : ℕ := g.size - g.nlog

def InData (b : ℕ) : Prop := g.dataStart ≤ b ∧ b < g.dataEnd

instance (b : ℕ) : Decidable (g.InData b) := by
  unfold InData
  infer_instance

def region : Region := ⟨BitVec.ofNat 32 g.dataEnd, BitVec.ofNat 32 g.nlog⟩

structure Describes (sb : Superblock) : Prop where
  size_eq : sb.size.toNat = g.size
  ninodes_eq : sb.ninodes.toNat = g.ninodes
  nlog_eq : sb.nlog.toNat = g.nlog

def bitmapSector (b : ℕ) : Sector := BitVec.ofNat 32 (b / bpb + g.ninodes / ipb + 3)

def used (s : Fs) (b : ℕ) : Bool := (s.cache (g.bitmapSector b)).testBit (b % bpb)

variable {g}

theorem four_le_dataStart : 4 ≤ g.dataStart := by
  unfold dataStart ipb bpb
  omega

theorem dataStart_le_dataEnd : g.dataStart ≤ g.dataEnd := by
  have hlayout := g.layout
  unfold dataStart dataEnd
  omega

theorem dataEnd_le_size : g.dataEnd ≤ g.size := Nat.sub_le _ _

theorem dataStart_le_size : g.dataStart ≤ g.size :=
  Nat.le_trans g.dataStart_le_dataEnd g.dataEnd_le_size

theorem dataEnd_add_nlog : g.dataEnd + g.nlog = g.size := by
  have hlayout := g.layout
  unfold ipb bpb at hlayout
  unfold dataEnd
  omega

variable {b : ℕ}

theorem InData.lt_size (h : g.InData b) : b < g.size :=
  Nat.lt_of_lt_of_le h.2 g.dataEnd_le_size

theorem ofNat_inj {b c : ℕ} (hb : b < 2 ^ 31) (hc : c < 2 ^ 31)
    (heq : BitVec.ofNat 32 b = BitVec.ofNat 32 c) : b = c := by
  have htoNat := congrArg BitVec.toNat heq
  simp only [BitVec.toNat_ofNat] at htoNat
  omega

theorem contains_region_iff (hb : b < 2 ^ 31) :
    g.region.Contains (BitVec.ofNat 32 b) ↔ g.dataEnd ≤ b ∧ b < g.size := by
  have hsize := g.size_lt
  have hend := g.dataEnd_add_nlog
  simp only [region, Region.Contains, BitVec.toNat_sub, BitVec.toNat_ofNat]
  omega

theorem not_contains_of_lt (hb : b < g.dataEnd) : ¬ g.region.Contains (BitVec.ofNat 32 b) := by
  have hsize := g.size_lt
  have hend := g.dataEnd_le_size
  rw [contains_region_iff (by omega)]
  omega

theorem bitmapSector_lt (hb : b < g.size) : b / bpb + g.ninodes / ipb + 3 < g.dataStart := by
  have hdiv : b / bpb ≤ g.size / bpb := Nat.div_le_div_right (by omega)
  unfold dataStart
  omega

theorem not_contains_bitmapSector (hb : b < g.size) : ¬ g.region.Contains (g.bitmapSector b) :=
  not_contains_of_lt (Nat.lt_of_lt_of_le (bitmapSector_lt hb) dataStart_le_dataEnd)

theorem not_contains_one : ¬ g.region.Contains 1 := by
  have hfour := g.four_le_dataStart
  have hstart := g.dataStart_le_dataEnd
  have hlt : 1 < g.dataEnd := by omega
  exact not_contains_of_lt hlt

theorem bitmapSector_ne_one (hb : b < g.size) : g.bitmapSector b ≠ 1 := by
  have hlt := bitmapSector_lt hb
  have hstart := g.dataStart_le_dataEnd
  have hend := g.dataEnd_le_size
  have hsize := g.size_lt
  intro heq
  have hone := ofNat_inj (c := 1) (by omega) (by omega) heq
  exact absurd hone (by unfold ipb bpb; omega)

theorem bitmapSector_ne_ofNat {b c : ℕ} (hb : b < g.size) (hc : g.dataStart ≤ c)
    (hlt : c < g.size) : g.bitmapSector b ≠ BitVec.ofNat 32 c := by
  have hbitmap := bitmapSector_lt hb
  have hsize := g.size_lt
  intro heq
  have hnat := ofNat_inj (by omega) (by omega) heq
  omega

theorem bitmapSector_eq_iff {b c : ℕ} (hb : b < g.size) (hc : c < g.size) :
    g.bitmapSector b = g.bitmapSector c ↔ b / bpb = c / bpb := by
  have hbitmap := bitmapSector_lt hb
  have hbitmap' := bitmapSector_lt hc
  have hsize := g.size_lt
  have hstart := g.dataStart_le_dataEnd
  have hend := g.dataEnd_le_size
  constructor
  · intro heq
    have hnat := ofNat_inj (by omega) (by omega) heq
    omega
  · intro heq
    rw [bitmapSector, bitmapSector, heq]

end Geometry

/-! ## One `log_write` -/

/-- What steps ask of a transaction: the number of sectors that are logged before the last
`log_write`, and the number of buffers that are pinned or in use at once. -/
structure Charge where
  log : ℕ
  buffers : ℕ

/-- How steps with this charge may stop: the log is too small, the buffers are too few, or there
is no transaction. -/
def Allowed (log : Log) (charge : Charge) : Halt → Prop
  | .tooBigTransaction => log.capacity ≤ charge.log
  | .noBuffers => nbuf ≤ charge.buffers
  | .writeOutsideTrans => log.busy = false
  | _ => False

namespace Fs

variable {s : Fs} {held : List Sector} {charge : Charge} {sector : Sector}

theorem bufcacheRead_meets (hfree : sector ∉ held)
    (hbuffers : (s.log.sectors ∪ held.toFinset).card ≤ charge.buffers) :
    Meets (Allowed s.log charge) (fun data => data = s.cache sector)
      (s.bufcacheRead held sector) := by
  unfold bufcacheRead
  rw [if_neg hfree]
  split
  · next hfull => exact hfull.2.trans hbuffers
  · rfl

theorem bufcacheRead_nil_meets (hbuffers : s.log.sectors.card ≤ charge.buffers) :
    Meets (Allowed s.log charge) (fun data => data = s.cache sector)
      (s.bufcacheRead [] sector) := by
  apply bufcacheRead_meets List.not_mem_nil
  rwa [List.toFinset_nil, Finset.union_empty]

structure Wrote (s : Fs) (sector : Sector) (data : Block) (s' : Fs) : Prop where
  cache_eq : ∀ other, ¬ s.log.Contains other →
    s'.cache other = update s.cache sector data other
  header_eq : s'.cache s.log.start = s.cache s.log.start
  region_eq : s'.log.toRegion = s.log.toRegion
  busy_eq : s'.log.busy = s.log.busy
  sectors_eq : s'.log.sectors = insert sector s.log.sectors
  logged : s'.log.Logged s'.log.lh s'.cache s'.cache

def LogOk (s : Fs) : Prop := s.log.Logged s.log.lh s.cache s.cache

theorem LogOk.wrote {data : Block} (hlog : s.LogOk) (hfull : ¬ s.log.Full)
    (hsector : ¬ s.log.Contains sector) :
    s.Wrote sector data ⟨update (update s.cache
      (s.log.slotAddr (s.log.slot sector)) data) sector data, s.log.record sector⟩ := by
  obtain ⟨hcontains, hstart⟩ := Log.slot_contains sector hlog hfull
  have hother : ∀ other, ¬ s.log.Contains other →
      update (update s.cache (s.log.slotAddr (s.log.slot sector)) data)
        sector data other = update s.cache sector data other := by
    intro other houtside
    have hne : other ≠ s.log.slotAddr (s.log.slot sector) := by
      rintro rfl
      exact houtside hcontains
    by_cases heq : other = sector
    · rw [heq, update_self, update_self]
    · rw [update_of_ne heq, update_of_ne heq, update_of_ne hne]
  refine ⟨hother, ?_, rfl, rfl, Log.sectors_record hlog hfull, ?_⟩
  · have hne := (Region.ne_start_of_not_contains (Nat.zero_lt_of_lt hlog.room) hsector).symm
    show update _ _ _ _ = _
    rw [update_of_ne hne, update_of_ne hstart.symm]
  · have hlogged := (Log.logged_record hlog hfull hsector data).write hsector
    rw [update_self] at hlogged
    exact hlogged.congr_home hother

theorem logWrite_meets {data : Block} (hlog : s.LogOk) (hsector : ¬ s.log.Contains sector)
    (hheld : ∀ other ∈ held, ¬ s.log.Contains other)
    (hcharge : s.log.sectors.card ≤ charge.log)
    (hbuffers : (s.log.sectors ∪ held.toFinset).card ≤ charge.buffers) :
    Meets (Allowed s.log charge) (s.Wrote sector data) (s.logWrite held sector data) := by
  unfold logWrite
  by_cases hfull : s.log.Full
  · rw [if_pos hfull]
    show s.log.capacity ≤ charge.log
    rw [Log.full_iff hlog, ← Log.card_sectors hlog] at hfull
    omega
  · rw [if_neg hfull]
    by_cases hbusy : s.log.busy = false
    · rw [if_pos hbusy]
      exact hbusy
    · rw [if_neg hbusy]
      obtain ⟨hcontains, hstart⟩ := Log.slot_contains sector hlog hfull
      have hunheld : s.log.slotAddr (s.log.slot sector) ∉ held := fun hmem =>
        hheld _ hmem hcontains
      refine Meets.bind (bufcacheRead_meets hunheld hbuffers) fun _ _ => ?_
      exact hlog.wrote hfull hsector

end Fs

/-! ## Allocating and freeing blocks -/

structure FsOk (g : Geometry) (s : Fs) : Prop where
  superblock : g.Describes (Superblock.decode (s.cache 1))
  region_eq : s.log.toRegion = g.region
  log : s.LogOk

section Allocator

variable {g : Geometry} {s s' : Fs} {held : List Sector} {charge : Charge} {sector : Sector}
  {data : Block}

theorem FsOk.wrote (h : FsOk g s) (hwrote : s.Wrote sector data s') (hone : sector ≠ 1) :
    FsOk g s'  where
  superblock := by
    have hcontains : ¬ s.log.Contains 1 := by
      rw [h.region_eq]
      exact Geometry.not_contains_one
    rw [hwrote.cache_eq 1 hcontains, update_of_ne hone.symm]
    exact h.superblock
  region_eq := hwrote.region_eq.trans h.region_eq
  log := hwrote.logged

theorem FsOk.cache_of_wrote {sector other : Sector} (h : FsOk g s) (hwrote : s.Wrote sector data s')
    (hother : ¬ g.region.Contains other) (hne : other ≠ sector) :
    s'.cache other = s.cache other := by
  rw [hwrote.cache_eq other (by rwa [h.region_eq]), update_of_ne hne]

theorem FsOk.cache_self (h : FsOk g s) (hwrote : s.Wrote sector data s')
    (hsector : ¬ g.region.Contains sector) : s'.cache sector = data := by
  rw [hwrote.cache_eq sector (by rwa [h.region_eq]), update_self]

variable {b c : ℕ}

theorem FsOk.used_of_wrote_bitmap (h : FsOk g s) (hwrote : s.Wrote (g.bitmapSector b) data s')
    (hb : b < g.size) (hc : c < g.size) :
    g.used s' c = if c / bpb = b / bpb then data.testBit (c % bpb) else g.used s c := by
  unfold Geometry.used
  by_cases heq : c / bpb = b / bpb
  · rw [if_pos heq, (Geometry.bitmapSector_eq_iff hc hb).mpr heq,
      h.cache_self hwrote (Geometry.not_contains_bitmapSector hb)]
  · rw [if_neg heq, h.cache_of_wrote hwrote (Geometry.not_contains_bitmapSector hc)]
    exact fun hsector => heq ((Geometry.bitmapSector_eq_iff hc hb).mp hsector)

theorem FsOk.used_of_wrote (h : FsOk g s) (hwrote : s.Wrote sector data s')
    (hsector : ∀ c < g.size, g.bitmapSector c ≠ sector) (hc : c < g.size) :
    g.used s' c = g.used s c := by
  rw [Geometry.used, h.cache_of_wrote hwrote (Geometry.not_contains_bitmapSector hc)
    (hsector c hc), Geometry.used]

theorem mod_bpb_eq_iff (hdiv : c / bpb = b / bpb) : c % bpb = b % bpb ↔ c = b := by
  constructor
  · intro hmod
    rw [← Nat.div_add_mod c bpb, ← Nat.div_add_mod b bpb, hdiv, hmod]
  · rintro rfl
    rfl

def HeldOk (g : Geometry) (s : Fs) (held : List Sector) : Prop :=
  ∀ sector ∈ held, ∃ b, sector = BitVec.ofNat 32 b ∧ g.InData b ∧ g.used s b = true

theorem heldOk_nil : HeldOk g s [] := fun _ h => absurd h List.not_mem_nil

theorem HeldOk.not_contains (h : HeldOk g s held) (hsector : sector ∈ held) :
    ¬ g.region.Contains sector := by
  obtain ⟨b, rfl, hdata, -⟩ := h sector hsector
  exact Geometry.not_contains_of_lt hdata.2

theorem HeldOk.one_not_mem (h : HeldOk g s held) : 1 ∉ held := by
  intro hmem
  obtain ⟨b, heq, hdata, -⟩ := h 1 hmem
  have hfour := g.four_le_dataStart
  have hend := g.dataEnd_le_size
  have hsize := g.size_lt
  obtain ⟨hstart, hlt⟩ := hdata
  have hone := Geometry.ofNat_inj (b := 1) (by omega) (by omega) heq
  omega

theorem HeldOk.bitmapSector_not_mem (h : HeldOk g s held) (hc : c < g.size) :
    g.bitmapSector c ∉ held := by
  intro hmem
  obtain ⟨b, heq, hdata, -⟩ := h _ hmem
  have hend := g.dataEnd_le_size
  exact Geometry.bitmapSector_ne_ofNat hc hdata.1 (by have := hdata.2; omega) heq

theorem HeldOk.free_not_mem (h : HeldOk g s held) (hb : g.InData b) (hfree : g.used s b = false) :
    BitVec.ofNat 32 b ∉ held := by
  intro hmem
  obtain ⟨c, heq, hdata, hused⟩ := h _ hmem
  have hend := g.dataEnd_le_size
  have hsize := g.size_lt
  have hb2 := hb.2
  have hc2 := hdata.2
  obtain rfl := Geometry.ofNat_inj (by omega) (by omega) heq
  exact absurd (hfree.symm.trans hused) (by decide)

theorem readSuperblock_meets (h : FsOk g s) (hheld : HeldOk g s held)
    (hbuffers : (s.log.sectors ∪ held.toFinset).card ≤ charge.buffers) :
    Meets (Allowed s.log charge) g.Describes (s.readSuperblock held) := by
  refine Meets.bind (Fs.bufcacheRead_meets hheld.one_not_mem hbuffers) ?_
  rintro _ rfl
  exact h.superblock

structure Allocated (g : Geometry) (s : Fs) (b : ℕ) (s' : Fs) : Prop where
  ok : FsOk g s'
  inData : g.InData b
  fresh : g.used s b = false
  used_eq : ∀ c < g.size, g.used s' c = (g.used s c || decide (c = b))
  zero : s'.cache (BitVec.ofNat 32 b) = fun _ => 0
  frame : ∀ sector, ¬ g.region.Contains sector → sector ≠ g.bitmapSector b →
    sector ≠ BitVec.ofNat 32 b → s'.cache sector = s.cache sector
  header_eq : s'.cache s.log.start = s.cache s.log.start
  busy_eq : s'.log.busy = s.log.busy
  sectors_eq : s'.log.sectors =
    insert (BitVec.ofNat 32 b) (insert (g.bitmapSector b) s.log.sectors)

theorem Allowed.congr {log log' : Log} (hregion : log'.toRegion = log.toRegion)
    (hbusy : log'.busy = log.busy) : Allowed log' charge = Allowed log charge := by
  have hcapacity : log'.capacity = log.capacity := by
    rw [Log.capacity, Log.capacity, hregion]
  funext e
  cases e <;> simp only [Allowed, hcapacity, hbusy]

theorem Allowed.mono {log : Log} {charge' : Charge} {e : Halt} (h : Allowed log charge e)
    (hlog : charge.log ≤ charge'.log) (hbuffers : charge.buffers ≤ charge'.buffers) :
    Allowed log charge' e := by
  cases e with
  | tooBigTransaction => exact h.trans hlog
  | noBuffers => exact h.trans hbuffers
  | _ => exact h

theorem FsOk.logWrite_meets (h : FsOk g s) (hsector : ¬ g.region.Contains sector)
    (hheld : ∀ other ∈ held, ¬ g.region.Contains other)
    (hcharge : s.log.sectors.card ≤ charge.log)
    (hbuffers : (insert sector s.log.sectors ∪ held.toFinset).card ≤ charge.buffers)
    (data : Block) : Meets (Allowed s.log charge) (s.Wrote sector data)
      (s.logWrite (sector :: held) sector data) := by
  rw [← h.region_eq] at hsector hheld
  refine Fs.logWrite_meets h.log hsector ?_ hcharge ?_
  · intro other hother
    obtain rfl | hother := List.mem_cons.mp hother
    · exact hsector
    · exact hheld other hother
  · rwa [List.toFinset_cons, Finset.union_insert, ← Finset.insert_union]

theorem FsOk.logWrite_single_meets (h : FsOk g s) (hsector : ¬ g.region.Contains sector)
    (hcharge : s.log.sectors.card ≤ charge.log)
    (hbuffers : (insert sector s.log.sectors).card ≤ charge.buffers) (data : Block) :
    Meets (Allowed s.log charge) (s.Wrote sector data) (s.logWrite [sector] sector data) := by
  refine h.logWrite_meets hsector (fun _ hother => absurd hother List.not_mem_nil) hcharge ?_ data
  rwa [List.toFinset_nil, Finset.union_empty]

theorem FsOk.allowed_eq (h : FsOk g s) (h' : FsOk g s') (hbusy : s'.log.busy = s.log.busy) :
    Allowed s'.log charge = Allowed s.log charge :=
  Allowed.congr (h'.region_eq.trans h.region_eq.symm) hbusy

theorem blockZero_meets (h : FsOk g s) (hb : g.InData b)
    (hheld : ∀ sector ∈ held, ¬ g.region.Contains sector) (hfresh : BitVec.ofNat 32 b ∉ held)
    (hcharge : s.log.sectors.card ≤ charge.log)
    (hbuffers : (insert (BitVec.ofNat 32 b) s.log.sectors ∪ held.toFinset).card ≤
      charge.buffers) : Meets (Allowed s.log charge) (s.Wrote (BitVec.ofNat 32 b) fun _ => 0)
      (s.blockZero held (BitVec.ofNat 32 b)) := by
  have hread := (Finset.card_le_card (Finset.union_subset_union_left (t := held.toFinset)
    (Finset.subset_insert (BitVec.ofNat 32 b) s.log.sectors))).trans hbuffers
  refine Meets.bind (Fs.bufcacheRead_meets hfresh hread) fun _ _ => ?_
  exact h.logWrite_meets (Geometry.not_contains_of_lt hb.2) hheld hcharge hbuffers _

theorem FsOk.allocated {s₁ s₂ : Fs} (h : FsOk g s) (hb : g.InData b) (hfresh : g.used s b = false)
    (hmark : s.Wrote (g.bitmapSector b) ((s.cache (g.bitmapSector b)).orBit (b % bpb)) s₁)
    (hzero : s₁.Wrote (BitVec.ofNat 32 b) (fun _ => 0) s₂) : Allocated g s b s₂ := by
  have hsize : b < g.size := hb.lt_size
  have hblock := Geometry.not_contains_of_lt hb.2
  have hok₁ := h.wrote hmark (Geometry.bitmapSector_ne_one hsize)
  have hbitmap : ∀ c < g.size, g.bitmapSector c ≠ BitVec.ofNat 32 b := fun c hc =>
    Geometry.bitmapSector_ne_ofNat hc hb.1 hsize
  have hone : BitVec.ofNat 32 b ≠ 1 := by
    have hfour := g.four_le_dataStart
    have hstart := hb.1
    have hlt := g.size_lt
    intro heq
    have hnat := Geometry.ofNat_inj (c := 1) (by omega) (by omega) heq
    omega
  refine ⟨hok₁.wrote hzero hone, hb, hfresh, ?_, hok₁.cache_self hzero hblock, ?_, ?_,
    ?_, ?_⟩
  · intro c hc
    rw [hok₁.used_of_wrote hzero hbitmap hc, h.used_of_wrote_bitmap hmark hsize hc]
    by_cases hdiv : c / bpb = b / bpb
    · have hbit : b % bpb < 8 * bsize := Nat.mod_lt _ (by decide)
      rw [if_pos hdiv, Bytes.testBit_orBit hbit, Geometry.used,
        (Geometry.bitmapSector_eq_iff hc hsize).mpr hdiv, decide_eq_decide.mpr
        (mod_bpb_eq_iff hdiv)]
    · have hne : c ≠ b := fun heq => hdiv (heq ▸ rfl)
      simp [hdiv, hne]
  · intro sector houtside hsector hother
    rw [hok₁.cache_of_wrote hzero houtside hother, h.cache_of_wrote hmark houtside hsector]
  · have hheader := hzero.header_eq
    rw [hmark.region_eq, hmark.header_eq] at hheader
    exact hheader
  · rw [hzero.busy_eq, hmark.busy_eq]
  · rw [hzero.sectors_eq, hmark.sectors_eq]

/-- The block that `block_alloc` takes: the lowest one of the data area whose bit is clear. -/
structure Geometry.NextFree (g : Geometry) (s : Fs) (b : ℕ) : Prop where
  inData : g.InData b
  clear : g.used s b = false
  least : ∀ c, g.InData c → g.used s c = false → b ≤ c

theorem Geometry.exists_nextFree (h : ∃ c, g.InData c ∧ g.used s c = false) :
    ∃ b, g.NextFree s b :=
  ⟨Nat.find h, (Nat.find_spec h).1, (Nat.find_spec h).2,
    fun _ hdata hclear => Nat.find_min' h ⟨hdata, hclear⟩⟩

/-- The log and the buffers, as far as the allocation of block `b` asks for them: its bit is
logged before the block itself. -/
structure Charge.Allocates (charge : Charge) (g : Geometry) (sectors : Finset Sector)
    (held : List Sector) (b : ℕ) : Prop where
  log : (insert (g.bitmapSector b) sectors).card ≤ charge.log
  buffers : (insert (BitVec.ofNat 32 b) (insert (g.bitmapSector b) sectors) ∪
    held.toFinset).card ≤ charge.buffers

theorem Charge.Allocates.before {sectors : Finset Sector}
    (h : charge.Allocates g sectors held b) : sectors.card ≤ charge.log ∧
      (insert (g.bitmapSector b) sectors ∪ held.toFinset).card ≤ charge.buffers ∧
      (sectors ∪ held.toFinset).card ≤ charge.buffers := by
  have hbit := Finset.subset_insert (g.bitmapSector b) sectors
  have hblock := Finset.subset_insert (BitVec.ofNat 32 b) (insert (g.bitmapSector b) sectors)
  refine ⟨(Finset.card_le_card hbit).trans h.log, ?_, ?_⟩
  · exact (Finset.card_le_card (Finset.union_subset_union_left hblock)).trans h.buffers
  · exact (Finset.card_le_card (Finset.union_subset_union_left (hbit.trans hblock))).trans h.buffers

theorem mark_and_zero_meets (h : FsOk g s) (hb : g.InData b) (hfresh : g.used s b = false)
    (hheld : HeldOk g s held) (hcharge : charge.Allocates g s.log.sectors held b) :
    Meets (Allowed s.log charge)
      (fun r => ∃ s', r = some (BitVec.ofNat 32 b, s') ∧ Allocated g s b s')
      (do
        let s ← s.logWrite (g.bitmapSector b :: held) (g.bitmapSector b)
          ((s.cache (g.bitmapSector b)).orBit (b % bpb))
        let s ← s.blockZero held (BitVec.ofNat 32 b)
        return some (BitVec.ofNat 32 b, s)) := by
  have hsize : b < g.size := hb.lt_size
  obtain ⟨hlog, hbuffers, -⟩ := hcharge.before
  refine Meets.bind (h.logWrite_meets (Geometry.not_contains_bitmapSector hsize)
    (fun sector => hheld.not_contains) hlog hbuffers _) fun s₁ hmark => ?_
  have hok₁ := h.wrote hmark (Geometry.bitmapSector_ne_one hsize)
  have hzero : Meets (Allowed s₁.log charge) _ (s₁.blockZero held (BitVec.ofNat 32 b)) :=
    blockZero_meets hok₁ hb (fun sector => hheld.not_contains) (hheld.free_not_mem hb hfresh)
      (hmark.sectors_eq ▸ hcharge.log) (hmark.sectors_eq ▸ hcharge.buffers)
  rw [Allowed.congr hmark.region_eq hmark.busy_eq] at hzero
  exact Meets.bind hzero fun s₂ hwrote => ⟨s₂, rfl, h.allocated hb hfresh hmark hwrote⟩

theorem firstFree_eq_some {b size bi : ℕ} (hfirst : Fs.firstFree data b size = some bi) :
    bi < bpb ∧ b + bi < size ∧ data.testBit bi = false ∧
      ∀ j < bi, b + j < size → data.testBit j = true := by
  obtain ⟨hbit, hlt, hbefore⟩ := List.find?_range_eq_some.mp hfirst
  simp only [Bool.and_eq_true, decide_eq_true_eq, Bool.not_eq_true'] at hbit
  refine ⟨List.mem_range.mp hlt, hbit.1, hbit.2, fun j hj hsize => ?_⟩
  have hnot := hbefore j hj
  simpa [hsize] using hnot

theorem firstFree_eq_none {b size : ℕ} (hfirst : Fs.firstFree data b size = none) :
    ∀ j < bpb, b + j < size → data.testBit j = true := by
  intro j hj hsize
  have hnot := List.find?_range_eq_none.mp hfirst j hj
  simpa [hsize] using hnot

theorem used_eq_testBit {k bi : ℕ} (hbi : bi < bpb) :
    g.used s (k * bpb + bi) = (s.cache (g.bitmapSector (k * bpb))).testBit bi := by
  have hdiv : (k * bpb + bi) / bpb = k := by
    rw [Nat.mul_comm, Nat.mul_add_div (by decide), Nat.div_eq_of_lt hbi, Nat.add_zero]
  have hmod : (k * bpb + bi) % bpb = bi := by
    rw [Nat.mul_comm, Nat.mul_add_mod, Nat.mod_eq_of_lt hbi]
  rw [Geometry.used, hmod, Geometry.bitmapSector, Geometry.bitmapSector, hdiv,
    Nat.mul_div_cancel _ (by decide)]

theorem allocIn_meets {sb : Superblock} (h : FsOk g s) (hsb : g.Describes sb)
    (hmeta : ∀ c < g.dataStart, g.used s c = true) (hnext : g.NextFree s b)
    (hheld : HeldOk g s held) (hcharge : charge.Allocates g s.log.sectors held b) {k : ℕ}
    (hlater : k * bpb ≤ b) :
    Meets (Allowed s.log charge)
      (fun r => (∃ s', r = some (BitVec.ofNat 32 b, s') ∧ Allocated g s b s') ∨
        (r = none ∧ ∀ bi < bpb, k * bpb + bi < g.size → g.used s (k * bpb + bi) = true))
      (s.allocIn held sb (k * bpb)) := by
  have hsize : b < g.size := hnext.inData.lt_size
  have hsector : bblock (k * bpb) sb.ninodes = g.bitmapSector (k * bpb) := by
    rw [bblock, hsb.ninodes_eq, Geometry.bitmapSector]
  unfold Fs.allocIn
  rw [hsector, hsb.size_eq]
  refine Meets.bind (Fs.bufcacheRead_meets
    (hheld.bitmapSector_not_mem (by omega)) hcharge.before.2.2) ?_
  rintro _ rfl
  cases hfirst : Fs.firstFree (s.cache (g.bitmapSector (k * bpb))) (k * bpb) g.size with
  | none =>
    refine Or.inr ⟨rfl, fun bi hbi hlt => ?_⟩
    rw [used_eq_testBit hbi]
    exact firstFree_eq_none hfirst bi hbi hlt
  | some bi =>
    obtain ⟨hbi, hlt, hbit, hbits⟩ := firstFree_eq_some hfirst
    rw [← used_eq_testBit hbi] at hbit
    -- the first clear bit is that of the lowest free data block
    have hle : k * bpb + bi ≤ b := by
      by_contra hgt
      have hset := hbits (b - k * bpb) (by omega) (by omega)
      rw [← used_eq_testBit (by omega), Nat.add_sub_cancel' hlater] at hset
      exact absurd (hset.symm.trans hnext.clear) (by decide)
    have hin : g.InData (k * bpb + bi) := by
      refine ⟨?_, Nat.lt_of_le_of_lt hle hnext.inData.2⟩
      by_contra hlt
      exact absurd ((hmeta _ (by omega)).symm.trans hbit) (by decide)
    obtain rfl : k * bpb + bi = b := hle.antisymm (hnext.least _ hin hbit)
    have hdiv : (k * bpb + bi) / bpb = k * bpb / bpb := by
      rw [Nat.mul_div_cancel _ (by decide), Nat.mul_comm, Nat.mul_add_div (by decide),
        Nat.div_eq_of_lt hbi, Nat.add_zero]
    have hmod : (k * bpb + bi) % bpb = bi := by
      rw [Nat.mul_comm, Nat.mul_add_mod, Nat.mod_eq_of_lt hbi]
    have hmark := mark_and_zero_meets h hin hbit hheld hcharge
    rw [hmod, (Geometry.bitmapSector_eq_iff hlt (by omega)).mpr hdiv] at hmark
    exact hmark.mono (fun _ h => h) fun _ h => Or.inl h

theorem allocFrom_meets {sb : Superblock} (h : FsOk g s) (hsb : g.Describes sb)
    (hmeta : ∀ c < g.dataStart, g.used s c = true) (hnext : g.NextFree s b)
    (hheld : HeldOk g s held) (hcharge : charge.Allocates g s.log.sectors held b) {k m : ℕ}
    (hlater : k * bpb ≤ b) (hsize : g.size ≤ (k + m) * bpb) :
    Meets (Allowed s.log charge) (fun r => r.1 = BitVec.ofNat 32 b ∧ Allocated g s b r.2)
      (s.allocFrom held sb (List.range' k m)) := by
  have hb : b < g.size := hnext.inData.lt_size
  induction m generalizing k with
  | zero =>
    rw [Nat.add_zero] at hsize
    omega
  | succ m ih =>
    rw [List.range'_succ, Fs.allocFrom]
    refine Meets.bind (allocIn_meets h hsb hmeta hnext hheld hcharge hlater) ?_
    rintro _ (⟨s', rfl, hallocated⟩ | ⟨rfl, hset⟩)
    · exact ⟨rfl, hallocated⟩
    · apply ih
      · by_contra hlt
        rw [Nat.add_mul, Nat.one_mul] at hlt
        have hused := hset (b - k * bpb) (by omega) (by omega)
        rw [Nat.add_sub_cancel' hlater] at hused
        exact absurd (hused.symm.trans hnext.clear) (by decide)
      · rwa [Nat.add_assoc, Nat.add_comm 1 m]

/-- **`block_alloc`.** With the bits below the data area set and some data block free, it
allocates the lowest free data block. -/
theorem blockAlloc_meets (h : FsOk g s) (hmeta : ∀ c < g.dataStart, g.used s c = true)
    (hnext : g.NextFree s b) (hheld : HeldOk g s held)
    (hcharge : charge.Allocates g s.log.sectors held b) :
    Meets (Allowed s.log charge) (fun r => r.1 = BitVec.ofNat 32 b ∧ Allocated g s b r.2)
      (s.blockAlloc held) := by
  refine Meets.bind (readSuperblock_meets h hheld hcharge.before.2.2) fun sb hsb => ?_
  rw [List.range_eq_range', hsb.size_eq]
  apply allocFrom_meets h hsb hmeta hnext hheld hcharge
  · rw [Nat.zero_mul]
    exact Nat.zero_le b
  · unfold bpb
    omega

structure Freed (g : Geometry) (s : Fs) (b : ℕ) (s' : Fs) : Prop where
  ok : FsOk g s'
  used_eq : ∀ c < g.size, g.used s' c = (g.used s c && decide (c ≠ b))
  frame : ∀ sector, ¬ g.region.Contains sector → sector ≠ g.bitmapSector b →
    s'.cache sector = s.cache sector
  header_eq : s'.cache s.log.start = s.cache s.log.start
  busy_eq : s'.log.busy = s.log.busy
  sectors_eq : s'.log.sectors = insert (g.bitmapSector b) s.log.sectors

/-- **`block_free`.** It panics on a block whose bit is clear, and otherwise clears the
bit. -/
theorem blockFree_meets (h : FsOk g s) (hb : b < g.size) (hheld : HeldOk g s held)
    (hcharge : s.log.sectors.card ≤ charge.log)
    (hbuffers : (insert (g.bitmapSector b) s.log.sectors ∪ held.toFinset).card ≤
      charge.buffers) :
    Meets (fun e => Allowed s.log charge e ∨ e = .freeingFreeBlock ∧ g.used s b = false)
      (Freed g s b) (s.blockFree held (BitVec.ofNat 32 b)) := by
  have hlt := g.size_lt
  have htoNat : (BitVec.ofNat 32 b).toNat = b := by
    rw [BitVec.toNat_ofNat]
    omega
  have hbitmap := Geometry.not_contains_bitmapSector hb
  have hread := (Finset.card_le_card (Finset.union_subset_union_left (t := held.toFinset)
    (Finset.subset_insert (g.bitmapSector b) s.log.sectors))).trans hbuffers
  refine Meets.bind ((readSuperblock_meets h hheld hread).mono
    (fun _ => Or.inl) fun _ h => h) fun sb hsb => ?_
  have hsector : bblock b sb.ninodes = g.bitmapSector b := by
    rw [bblock, hsb.ninodes_eq, Geometry.bitmapSector]
  rw [htoNat, hsector]
  refine Meets.bind ((Fs.bufcacheRead_meets (hheld.bitmapSector_not_mem hb) hread).mono
    (fun _ => Or.inl) fun _ h => h) ?_
  rintro _ rfl
  by_cases hbit : (s.cache (g.bitmapSector b)).testBit (b % bpb) = false
  · rw [if_pos hbit]
    exact Or.inr ⟨rfl, hbit⟩
  · rw [if_neg hbit]
    refine (h.logWrite_meets hbitmap (fun sector => hheld.not_contains) hcharge hbuffers _).mono
      (fun _ => Or.inl) fun s' hwrote => ?_
    refine ⟨h.wrote hwrote (Geometry.bitmapSector_ne_one hb), ?_, ?_, hwrote.header_eq,
      hwrote.busy_eq, hwrote.sectors_eq⟩
    · intro c hc
      rw [h.used_of_wrote_bitmap hwrote hb hc]
      by_cases hdiv : c / bpb = b / bpb
      · have hmod : b % bpb < 8 * bsize := Nat.mod_lt _ (by decide)
        rw [if_pos hdiv, Bytes.testBit_clearBit hmod, Geometry.used,
          (Geometry.bitmapSector_eq_iff hc hb).mpr hdiv]
        simp only [ne_eq, mod_bpb_eq_iff hdiv]
      · have hne : c ≠ b := fun heq => hdiv (heq ▸ rfl)
        simp [hdiv, hne]
    · intro sector houtside hne
      exact h.cache_of_wrote hwrote houtside hne

end Allocator

end MCertikos.FS
