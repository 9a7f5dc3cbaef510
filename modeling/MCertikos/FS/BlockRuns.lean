/-
# Runs of the block allocator

The bitmap that `mkfs` writes has the bits of the blocks up to the end of the data in use set, and
the bits of the log clear.
-/

import MCertikos.FS.BlockInv
import MCertikos.Math.Run

namespace MCertikos.FS

open Math

inductive BlockOp
  | begin
  | commit
  | alloc
  | free (b : Sector)
  deriving DecidableEq

inductive BlockOut
  | done
  | block (b : Sector)
  deriving DecidableEq

def blockMachine : Machine Fs BlockOp BlockOut where
  exec s op :=
    match op with
    | .begin => s.beginTrans.map fun s => (s, .done)
    | .commit => s.commitTrans.map fun s => (s, .done)
    | .alloc => (s.blockAlloc []).toOption.map fun (b, s) => (s, .block b)
    | .free b => (s.blockFree [] b).toOption.map fun s => (s, .done)

/-- An image as `mkfs` lays it out: the bits of the metadata are set, those of the log are clear,
and the log is empty. -/
structure MkfsImage (g : Geometry) (disk : Disk) : Prop where
  superblock : g.Describes (Superblock.decode (disk 1))
  meta_used : ∀ b < g.dataStart, (disk (g.bitmapSector b)).testBit (b % bpb) = true
  log_clear : ∀ b, g.dataEnd ≤ b → b < g.size →
    (disk (g.bitmapSector b)).testBit (b % bpb) = false
  log_empty : (disk g.region.start).word 0 = 0

def DataFree (g : Geometry) (s : Fs) : BlockOp → Prop
  | .alloc => ∃ b < g.size, g.InData b ∧ g.used s b = false
  | .free b => g.InData b.toNat
  | _ => True

instance (g : Geometry) (s : Fs) (op : BlockOp) : Decidable (DataFree g s op) := by
  unfold DataFree
  split <;> infer_instance

/-- A block that `block_alloc` returns is a data block that was free, it is in use and zero
afterwards, and no other bit has changed. -/
def AllocSpec (g : Geometry) (s : Fs) : Prop :=
  ∀ b s', s.blockAlloc [] = .ok (b, s') →
    g.InData b.toNat ∧ g.used s b.toNat = false ∧ g.used s' b.toNat = true ∧
    (∀ c < g.size, c ≠ b.toNat → g.used s' c = g.used s c) ∧ s'.cache b = fun _ => 0

section Runs

variable {g : Geometry} {s s' : Fs}

structure AllocInv (g : Geometry) (s : Fs) : Prop where
  ok : FsOk g s
  empty : (s.cache s.log.start).word 0 = 0
  meta_used : ∀ b < g.dataStart, g.used s b = true
  log_clear : ∀ b, g.dataEnd ≤ b → b < g.size → g.used s b = false

theorem region_size_pos : 0 < g.region.size.toNat := by
  have hpos := g.nlog_pos
  have hend := g.dataEnd_add_nlog
  have hlt := g.size_lt
  simp only [Geometry.region, BitVec.toNat_ofNat]
  omega

theorem MkfsImage.allocInv {home : Disk} (himage : MkfsImage g home)
    (hclean : g.region.Clean home s.cache) (hregion : s.log.toRegion = g.region)
    (hn : s.log.lh.n = 0) : AllocInv g s := by
  have hused : ∀ b < g.size, g.used s b = (home (g.bitmapSector b)).testBit (b % bpb) := by
    intro b hb
    rw [Geometry.used, hclean.home_eq _ (Geometry.not_contains_bitmapSector hb)]
  have hself : g.region.Clean s.cache s.cache := ⟨fun _ _ => rfl, hclean.empty⟩
  refine ⟨⟨?_, hregion, ?_⟩, ?_, ?_, ?_⟩
  · rw [hclean.home_eq 1 Geometry.not_contains_one]
    exact himage.superblock
  · rw [Fs.LogOk, hregion]
    exact hself.logged region_size_pos hn
  · rw [hregion]
    exact hclean.empty
  · intro b hb
    rw [hused b (Nat.lt_of_lt_of_le hb g.dataStart_le_size)]
    exact himage.meta_used b hb
  · intro b hb hsize
    rw [hused b hsize]
    exact himage.log_clear b hb hsize

theorem AllocInv.image (h : AllocInv g s) : MkfsImage g s.cache :=
  ⟨h.ok.superblock, h.meta_used, h.log_clear, h.ok.region_eq ▸ h.empty⟩

theorem Geometry.Describes.region_eq {sb : Superblock} (h : g.Describes sb) :
    (⟨sb.size - sb.nlog, sb.nlog⟩ : Region) = g.region := by
  have hsize := h.size_eq
  have hnlog := h.nlog_eq
  have hlt := g.size_lt
  have hend := g.dataEnd_add_nlog
  rw [Geometry.region, Region.mk.injEq]
  constructor <;> bv_omega

theorem MkfsImage.mount {disk : Disk} (himage : MkfsImage g disk) :
    ∃ s, Fs.mount disk = some s ∧ g.region.Clean disk s.cache ∧ s.log.toRegion = g.region ∧
      s.log.lh.n = 0 := by
  have hclean : g.region.Clean disk disk := ⟨fun _ _ => rfl, himage.log_empty⟩
  have hwp : (Log.boot g.region).recoverFromLog.wp False _ _ disk :=
    Log.wp_recoverFromLog (Log.boot g.region) rfl (hclean.recoverable region_size_pos)
  obtain ⟨log, cache, hrun⟩ := Prog.run_of_not_stuck hwp id
  obtain ⟨⟨hregion, -, hn⟩, hlast⟩ := Prog.post_of_run hwp hrun
  rw [← himage.superblock.region_eq] at hrun
  refine ⟨⟨cache, log⟩, ?_, hlast, hregion, hn⟩
  exact Option.map_eq_some_iff.mpr ⟨(log, cache), hrun, rfl⟩

theorem allocInv_mount {disk : Disk} (himage : MkfsImage g disk)
    (hmount : Fs.mount disk = some s) : AllocInv g s := by
  obtain ⟨s', hmount', hclean, hregion, hn⟩ := himage.mount
  obtain rfl : s = s' := Option.some.inj (hmount.symm.trans hmount')
  exact himage.allocInv hclean hregion hn

theorem AllocInv.begin (h : AllocInv g s) (hbegin : s.beginTrans = some s') : AllocInv g s' := by
  obtain ⟨-, hbegin⟩ := Option.ite_none_left_eq_some.mp hbegin
  obtain rfl := Option.some.inj hbegin
  exact ⟨⟨h.ok.superblock, h.ok.region_eq, h.ok.log⟩, h.empty, h.meta_used, h.log_clear⟩

theorem AllocInv.commit (h : AllocInv g s) (hcommit : s.commitTrans = some s') : AllocInv g s' := by
  obtain ⟨⟨log, cache⟩, hrun, rfl⟩ := Option.map_eq_some_iff.mp hcommit
  have hclean : s.log.Clean s.cache s.cache := ⟨fun _ _ => rfl, h.empty⟩
  have hwp : s.log.commitTrans.wp False _ _ s.cache := Log.wp_commitTrans hclean h.ok.log
  obtain ⟨⟨hregion, -, hn⟩, hlast⟩ := Prog.post_of_run hwp hrun
  rw [h.ok.region_eq] at hregion hlast
  exact h.image.allocInv hlast hregion hn

theorem AllocInv.alloc {b : Sector} (h : AllocInv g s) (hfree : DataFree g s .alloc)
    (halloc : s.blockAlloc [] = .ok (b, s')) : ∃ c, b = BitVec.ofNat 32 c ∧ Allocated g s c s' := by
  obtain ⟨c, -, hfree⟩ := hfree
  obtain ⟨b, hnext⟩ := Geometry.exists_nextFree ⟨c, hfree⟩
  have hcharge : Charge.Allocates ⟨_, _⟩ g s.log.sectors [] b := ⟨Nat.le_refl _, Nat.le_refl _⟩
  exact ⟨b, (blockAlloc_meets h.ok h.meta_used hnext heldOk_nil hcharge).of_ok halloc⟩

theorem AllocInv.of_allocated {c : ℕ} (h : AllocInv g s) (hc : Allocated g s c s') :
    AllocInv g s' where
  ok := hc.ok
  empty := by
    rw [hc.ok.region_eq, ← h.ok.region_eq, hc.header_eq]
    exact h.empty
  meta_used b hb := by
    rw [hc.used_eq b (Nat.lt_of_lt_of_le hb g.dataStart_le_size), h.meta_used b hb, Bool.true_or]
  log_clear b hb hsize := by
    have hne : b ≠ c := by
      have hlt := hc.inData.2
      omega
    rw [hc.used_eq b hsize, h.log_clear b hb hsize]
    simp [hne]

theorem AllocInv.of_freed {c : ℕ} (h : AllocInv g s) (hdata : g.InData c)
    (hc : Freed g s c s') : AllocInv g s' where
  ok := hc.ok
  empty := by
    rw [hc.ok.region_eq, ← h.ok.region_eq, hc.header_eq]
    exact h.empty
  meta_used b hb := by
    have hne : b ≠ c := by
      have hle := hdata.1
      omega
    rw [hc.used_eq b (Nat.lt_of_lt_of_le hb g.dataStart_le_size), h.meta_used b hb]
    simp [hne]
  log_clear b hb hsize := by
    rw [hc.used_eq b hsize, h.log_clear b hb hsize, Bool.false_and]

theorem AllocInv.step (h : AllocInv g s) {op : BlockOp} {out : BlockOut}
    (hop : DataFree g s op) (hexec : blockMachine.exec s op = some (s', out)) : AllocInv g s' := by
  cases op with
  | begin =>
    obtain ⟨t, hbegin, heq⟩ := Option.map_eq_some_iff.mp hexec
    obtain ⟨rfl, -⟩ := Prod.mk.inj heq
    exact h.begin hbegin
  | commit =>
    obtain ⟨t, hcommit, heq⟩ := Option.map_eq_some_iff.mp hexec
    obtain ⟨rfl, -⟩ := Prod.mk.inj heq
    exact h.commit hcommit
  | alloc =>
    obtain ⟨⟨b, t⟩, halloc, heq⟩ := Option.map_eq_some_iff.mp hexec
    obtain ⟨rfl, -⟩ := Prod.mk.inj heq
    obtain ⟨c, -, hc⟩ := h.alloc hop (eq_ok_of_toOption halloc)
    exact h.of_allocated hc
  | free b =>
    obtain ⟨t, hfree, heq⟩ := Option.map_eq_some_iff.mp hexec
    obtain ⟨rfl, -⟩ := Prod.mk.inj heq
    have hdata : g.InData b.toNat := hop
    have hmeets : Meets (fun e => Allowed s.log ⟨_, _⟩ e ∨ _) _ _ :=
      blockFree_meets h.ok hdata.lt_size heldOk_nil (Nat.le_refl _) (Nat.le_refl _)
    rw [BitVec.ofNat_toNat, BitVec.setWidth_eq] at hmeets
    exact h.of_freed hdata (hmeets.of_ok (eq_ok_of_toOption hfree))

/-- **`block_alloc` hands out free data blocks.** After `log_init` on an image of
`mkfs`, in every run in which a data block is free at every allocation and only data
blocks are freed, a call that finds a data block free does what it shall do. -/
theorem allocSpec_of_run {disk : Disk} {s₀ : Fs} (himage : MkfsImage g disk)
    (hmount : Fs.mount disk = some s₀) {trace : List (BlockOp × BlockOut)}
    (run : blockMachine.Run (DataFree g) s₀ trace s) (hfree : DataFree g s .alloc) :
    AllocSpec g s := by
  have hinv : AllocInv g s :=
    run.invariant (allocInv_mount himage hmount) fun h hop hexec => h.step hop hexec
  intro b s' halloc
  obtain ⟨c, rfl, hc⟩ := hinv.alloc hfree halloc
  have hlt := g.size_lt
  have hsize : c < g.size := hc.inData.lt_size
  have htoNat : (BitVec.ofNat 32 c).toNat = c := by
    rw [BitVec.toNat_ofNat]
    omega
  rw [htoNat]
  refine ⟨hc.inData, hc.fresh, ?_, ?_, hc.zero⟩
  · rw [hc.used_eq c hsize]
    simp
  · intro b hb hne
    rw [hc.used_eq b hb]
    simp [hne]

end Runs

/-! ## A disk of 32 blocks -/

def balloc (used : ℕ) : Block := (List.range used).foldl Bytes.orBit fun _ => 0

def Superblock.encode (sb : Superblock) : Block :=
  Bytes.setWords (fun _ => 0) 0 (fun i => [sb.size, sb.nblocks, sb.ninodes, sb.nlog].getD i 0) 4

theorem Superblock.decode_encode (sb : Superblock) : decode (encode sb) = sb := by
  have hword : ∀ i < 4, (encode sb).word i =
      [sb.size, sb.nblocks, sb.ninodes, sb.nlog].getD i 0 := by
    intro i hi
    have hset : (encode sb).word (0 + i) = _ := Bytes.word_setWords hi (by decide)
    rwa [Nat.zero_add] at hset
  rw [decode, hword 0 (by decide), hword 1 (by decide), hword 2 (by decide),
    hword 3 (by decide)]
  rfl

def smallGeometry : Geometry := ⟨32, 8, 10, by decide, by decide, by decide⟩

def smallDisk (used : ℕ) : Disk := fun sector =>
  if sector = 1 then Superblock.encode ⟨32, 17, 8, 10⟩
  else if sector = 4 then balloc used
  else fun _ => 0

theorem mkfsImage_smallDisk {used : ℕ} (hused : used = 20 ∨ used = 22) :
    MkfsImage smallGeometry (smallDisk used) := by
  have hbits : ∀ b < 32, (smallDisk used (smallGeometry.bitmapSector b)).testBit (b % bpb) =
      decide (b < used) := by
    obtain rfl | rfl := hused
    · decide +kernel
    · decide +kernel
  have hempty : (smallDisk used smallGeometry.region.start).word 0 = 0 := by
    obtain rfl | rfl := hused
    · decide +kernel
    · decide +kernel
  have hsb : Superblock.decode (smallDisk used 1) = ⟨32, 17, 8, 10⟩ :=
    Superblock.decode_encode _
  refine ⟨by rw [hsb]; exact ⟨rfl, rfl, rfl⟩, ?_, ?_, hempty⟩
  · intro b hb
    have hlt : b < 5 := hb
    rw [hbits b (by omega), decide_eq_true_eq]
    omega
  · intro b hb hsize
    have hle : 22 ≤ b := hb
    rw [hbits b hsize, decide_eq_false_iff_not]
    omega

theorem allocSpec_of_one_allocation :
    ∃ (s₀ s : Fs) (trace : List (BlockOp × BlockOut)),
      MkfsImage smallGeometry (smallDisk 20) ∧ Fs.mount (smallDisk 20) = some s₀ ∧
      blockMachine.Run (DataFree smallGeometry) s₀ trace s ∧
      trace = [(.begin, .done), (.alloc, .block 20)] ∧ DataFree smallGeometry s .alloc ∧
      AllocSpec smallGeometry s := by
  have himage : MkfsImage smallGeometry (smallDisk 20) := mkfsImage_smallDisk (Or.inl rfl)
  have hall : ((Fs.mount (smallDisk 20)).bind fun s₀ =>
      ((blockMachine.guarded (DataFree smallGeometry)).runAll s₀ [.begin, .alloc]).bind
        fun r => if DataFree smallGeometry r.1 .alloc then some r.2 else none) =
      some [.done, .block 20] := by
    decide +kernel
  obtain ⟨s₀, hmount, hrest⟩ := Option.bind_eq_some_iff.mp hall
  obtain ⟨⟨s, outs⟩, hrun, hfree⟩ := Option.bind_eq_some_iff.mp hrest
  obtain ⟨hfree, houts⟩ := Option.ite_none_right_eq_some.mp hfree
  obtain rfl := Option.some.inj houts
  have hrun := Machine.run_of_guarded hrun
  exact ⟨s₀, s, _, himage, hmount, hrun, rfl, hfree, allocSpec_of_run himage hmount hrun hfree⟩

/-- With all 17 data blocks in use, `block_alloc` returns block 22, the header of the
log. -/
theorem blockAlloc_of_full_disk_returns_log_block :
    ∃ s₀ s₁ s₂ : Fs, MkfsImage smallGeometry (smallDisk 22) ∧
      Fs.mount (smallDisk 22) = some s₀ ∧
      blockMachine.Run Machine.anyStep s₀ [(.begin, .done)] s₁ ∧
      blockMachine.exec s₁ .alloc = some (s₂, .block 22) ∧
      smallGeometry.region.Contains 22 ∧ ¬ AllocSpec smallGeometry s₁ := by
  have himage : MkfsImage smallGeometry (smallDisk 22) := mkfsImage_smallDisk (Or.inr rfl)
  have hall : ((Fs.mount (smallDisk 22)).bind fun s₀ =>
      (blockMachine.exec s₀ .begin).bind fun r₁ =>
        (blockMachine.exec r₁.1 .alloc).map fun r₂ => (r₁.2, r₂.2)) =
      some (.done, .block 22) := by
    decide +kernel
  obtain ⟨s₀, hmount, hrest⟩ := Option.bind_eq_some_iff.mp hall
  obtain ⟨⟨s₁, out₁⟩, hbegin, hrest⟩ := Option.bind_eq_some_iff.mp hrest
  obtain ⟨⟨s₂, out₂⟩, halloc, houts⟩ := Option.map_eq_some_iff.mp hrest
  obtain ⟨rfl, rfl⟩ := Prod.mk.inj houts
  refine ⟨s₀, s₁, s₂, himage, hmount, .single trivial hbegin, halloc, by decide, ?_⟩
  intro hspec
  obtain ⟨⟨b, t⟩, hok, heq⟩ := Option.map_eq_some_iff.mp halloc
  obtain ⟨rfl, hblock⟩ := Prod.mk.inj heq
  obtain rfl := BlockOut.block.inj hblock
  exact absurd (hspec _ _ (eq_ok_of_toOption hok)).1 (by decide)

/-! ## The superblock on the host -/

inductive SizeT
  | four | eight
  deriving DecidableEq

/-- The words of `struct superblock` on the host.  A wide `size_t` has an upper half, which `xint`
leaves zero, and the structure ends with padding. -/
def SizeT.fields (sb : Superblock) : SizeT → List (BitVec 32)
  | .four => [sb.size, sb.nblocks, sb.ninodes, sb.nlog]
  | .eight => [sb.size, 0, sb.nblocks, sb.ninodes, sb.nlog, 0]

def hostSector (host : SizeT) (sb : Superblock) : Block :=
  Bytes.setWords (fun _ => 0) 0 (fun i => (host.fields sb).getD i 0) (host.fields sb).length

theorem hostSector_four (sb : Superblock) : hostSector .four sb = sb.encode := rfl

theorem decode_hostSector_eight (sb : Superblock) :
    Superblock.decode (hostSector .eight sb) = ⟨sb.size, 0, sb.nblocks, sb.ninodes⟩ := by
  have hword : ∀ i < 6, (hostSector .eight sb).word (0 + i) =
      [sb.size, 0, sb.nblocks, sb.ninodes, sb.nlog, 0].getD i 0 :=
    fun i hi => Bytes.word_setWords hi (show 4 * (0 + 6) ≤ bsize by decide)
  simp only [Nat.zero_add] at hword
  rw [Superblock.decode, hword 0 (by decide), hword 1 (by decide), hword 2 (by decide),
    hword 3 (by decide)]
  rfl

/-- **The superblock of `mkfs`.** `read_superblock` returns what it decodes from sector 1.  On a
host whose `size_t` has four bytes these are the four values `mkfs` had; on one with eight
bytes they are so only if there are no data blocks, inodes and log blocks at all. -/
theorem superblock_round_trips (host : SizeT) (sb : Superblock) {s : Fs}
    (hsector : s.cache 1 = hostSector host sb) (held : List Sector) :
    s.readSuperblock held = (s.bufcacheRead held 1).map Superblock.decode ∧
      (∀ bp, s.bufcacheRead held 1 = .ok bp → (Superblock.decode bp = sb ↔
        host = .four ∨ sb.nblocks = 0 ∧ sb.ninodes = 0 ∧ sb.nlog = 0)) := by
  refine ⟨rfl, fun bp hread => ?_⟩
  have hbp : bp = hostSector host sb := by
    unfold Fs.bufcacheRead at hread
    split_ifs at hread
    cases hread
    exact hsector
  rw [hbp]
  cases host with
  | four => simp [hostSector_four, Superblock.decode_encode]
  | eight =>
    rw [decode_hostSector_eight]
    cases sb
    grind

def mkfsValues : Superblock := ⟨1024, 985, 200, 10⟩

theorem superblock_round_trips_on_four :
    Superblock.decode (hostSector .four mkfsValues) = mkfsValues :=
  ((superblock_round_trips .four mkfsValues (s := ⟨fun _ => hostSector .four mkfsValues,
    .boot ⟨1014, 10⟩⟩) rfl []).2 _ rfl).mpr (.inl rfl)

/-- On a 64-bit host the kernel finds no data blocks, 985 inodes and a log of 200 blocks. -/
theorem superblock_shifted_on_eight :
    Superblock.decode (hostSector .eight mkfsValues) = ⟨1024, 0, 985, 200⟩ :=
  decode_hostSector_eight mkfsValues

end MCertikos.FS
