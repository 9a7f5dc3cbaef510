/-
# The image as the kernel mounts it

The size of the root directory is rounded up by a whole block too much if it is a multiple of the
block size, and then the last block is not there.
-/

import MCertikos.Mkfs.Image

namespace MCertikos.FS

open Math

theorem Consistent.congr {g : Geometry} {s s' : Fs} (h : Consistent g s) (hok : FsOk g s')
    (hcache : ∀ sector, ¬ g.region.Contains sector → s'.cache sector = s.cache sector) :
    Consistent g s' ∧ Elsewhere g g.ninodes s s' := by
  have hdata : ∀ b, g.InData b → s'.cache (BitVec.ofNat 32 b) = s.cache (BitVec.ofNat 32 b) :=
    fun b hb => hcache _ hb.plain.not_contains
  have hused : ∀ b < g.size, g.used s' b = g.used s b := by
    intro b hb
    rw [Geometry.used, hcache _ (Geometry.not_contains_bitmapSector hb), Geometry.used]
  have hdinode : ∀ j < g.ninodes, s'.dinode j = s.dinode j := by
    intro j hj
    rw [Fs.dinode, hcache _ (plain_iblock hj).not_contains, Fs.dinode]
  have helse : Elsewhere g g.ninodes s s' :=
    ⟨fun j hj _ => hdinode j hj, fun j p b _ hb => hdata b (h.accounted.inData hb)⟩
  have hnone : ∀ (s : Fs) (k : ℕ × ℕ), k.1 = g.ninodes → refs g s k = none := fun s k hk =>
    if_neg fun halloc => Nat.ne_of_lt halloc.1 hk
  have howner : withFile g.ninodes (refs g s) (fun _ => none) = refs g s := by
    funext k
    by_cases hk : k.1 = g.ninodes
    · rw [withFile, if_pos hk, hnone s k hk]
    · rw [withFile, if_neg hk]
  refine ⟨h.of_elsewhere helse ?_ (fun p => hnone s' _ rfl) fun halloc => ?_, helse⟩
  · rw [howner]
    refine ⟨hok, fun b hb => ?_, h.accounted.owns.congr fun b => ?_⟩
    · rw [hused b (hb.trans_le g.dataStart_le_size)]
      exact h.accounted.meta_used b hb
    · rw [Geometry.DataUsed, Geometry.DataUsed, and_congr_right_iff]
      intro hb
      rw [hused b hb.lt_size]
  · exact absurd halloc.1 (Nat.lt_irrefl _)

theorem sectors_of_empty {log : Log} (h : log.lh.n = 0) : log.sectors = ∅ := by
  rw [Log.sectors, LogHeader.count, h]
  rfl

end MCertikos.FS

namespace MCertikos.Mkfs

open FS
open Math
open Sysfile (Byte direntSize slash tDir tFile)

/-! ## Closing the image -/

section Close

variable {s : Image} {v : Volume}

def Image.rounded (s : Image) : Image :=
  s.setInode rootino { s.view.dinode rootino with
    size := BitVec.ofNat 32 (roundUp (s.view.dinode rootino).size.toNat) }

theorem Builds.ready_rounded (h : Builds s v) : Ready s.rounded := h.ready.setInode (by decide)

theorem Builds.close_disk (h : Builds s v) : s.close.disk = s.rounded.view.cache := by
  have hused : s.usedblocks = s.rounded.freeblock := h.ready.used_eq
  have hclose : s.close.disk =
      Function.update s.rounded.disk bitmap (balloc s.usedblocks) := rfl
  rw [hclose, hused, Image.view]

theorem Builds.mkfsImage (h : Builds s v) : MkfsImage geometry s.close.disk := by
  have hready := h.ready_rounded
  have hge := hready.ge
  have hle := hready.le
  rw [h.close_disk]
  refine ⟨hready.fsOk.superblock, fun b hb => ?_, fun b hb hlt => ?_, ?_⟩
  · have hused := hready.used_view (b := b) (hb.trans_le geometry.dataStart_le_size)
    have hlt : b < s.rounded.freeblock := Nat.lt_of_lt_of_le hb hge
    rw [decide_eq_true hlt] at hused
    exact hused
  · have hused := hready.used_view (b := b) hlt
    rw [decide_eq_false (by omega)] at hused
    exact hused
  · rw [hready.header_zero, Bytes.word_zero]

theorem fileSlots_roundUp {len : ℕ} (h : len % bsize ≠ 0) :
    fileSlots (roundUp len) = fileSlots len := by
  unfold fileSlots roundUp bsize at *
  omega

/-- **The root directory.** If its size is not a multiple of the block size, it has the blocks
that the rounded size asks for. -/
theorem Builds.rounded (h : Builds s v) (hroot : rootino < v.next)
    (hround : (v.content rootino).length % bsize ≠ 0) :
    WrittenBack s rootino { s.view.dinode rootino with
      size := BitVec.ofNat 32 (roundUp (s.view.dinode rootino).size.toNat) }
      (v.content rootino) s.rounded := by
  have hholds := h.holds rootino Nat.one_pos hroot
  have hi : rootino < ninodes := by decide
  have hstart := Appending.start h.ready h.consistent
    (hholds.allocated hi (kind_ne_zero rootino)) hholds
  have htype : (s.view.dinode rootino).type ≠ 0 := hholds.type_eq.symm ▸ kind_ne_zero rootino
  refine hstart.finish h.consistent hi htype ?_
  rw [hholds.size_eq]
  exact fileSlots_roundUp hround

end Close

/-! ## Mounting the image -/

/-- An image in order, which the kernel has mounted as `s`. -/
structure Sound (image : Image) (s : Fs) : Prop where
  inodes : image.freeinode ≤ ninodes
  distinct : ∀ k l b, refs geometry s k = some b → refs geometry s l = some b → k = l
  inData : ∀ k b, refs geometry s k = some b → metaBlocks ≤ b ∧ b < size - nlog
  shaped : ∀ i, 0 < i → i < image.freeinode → (s.dinode i).type ≠ 0 ∧
    Shaped (s.dinode i) s.cache (fileSlots (s.dinode i).size.toNat)
  bits : ∀ b < bpb, (image.disk bitmap).testBit b = true ↔
    b < metaBlocks ∨ ∃ k, refs geometry s k = some b
  read : ∀ (devsw : ℕ → Devsw) (ip : Inode) (off len : BitVec 32), Synced geometry s ip →
    ∃ r, s.inodeRead devsw ip off len = .ok r ∧ r.2.2 = (ip, s)

structure Mounted (v : Volume) (image : Image) (s : Fs) : Prop where
  mount_eq : Fs.mount image.disk = some s
  consistent : Consistent geometry s
  sectors_eq : s.log.sectors = ∅
  freeinode_eq : image.freeinode = v.next
  cache_bitmap : s.cache bitmap = balloc image.usedblocks
  bitmap_eq : image.disk bitmap = balloc image.usedblocks
  used_le : image.usedblocks ≤ size - nlog
  type_ne : ∀ i, 0 < i → i < v.next → (s.dinode i).type ≠ 0

/-- The mounted file system has the sectors of the image. -/
theorem Builds.cache_eq {image : Image} {v : Volume} {s : Fs} (h : Builds image v)
    (hmount : Fs.mount image.close.disk = some s) {sector : Sector}
    (hsector : ¬ geometry.region.Contains sector) :
    s.cache sector = image.rounded.view.cache sector := by
  obtain ⟨s', hmount', hclean, -, -⟩ := h.mkfsImage.mount
  obtain rfl : s' = s := Option.some.inj (hmount'.symm.trans hmount)
  rw [hclean.home_eq sector hsector, h.close_disk]

theorem Builds.mounted {image : Image} {v : Volume} (h : Builds image v) (hroot : rootino < v.next)
    (hnext : v.next ≤ ninodes) (hround : (v.content rootino).length % bsize ≠ 0) :
    ∃ s, Mounted v image.close s := by
  obtain ⟨s, hmount, hclean, -, hn⟩ := h.mkfsImage.mount
  have hback := h.rounded hroot hround
  obtain ⟨hcons, helse⟩ := hback.consistent.congr (allocInv_mount h.mkfsImage hmount).ok
    fun _ => h.cache_eq hmount
  have hbitmap : image.close.disk bitmap = balloc image.usedblocks := write_self
  refine ⟨s, hmount, hcons, sectors_of_empty hn, h.freeinode_eq, ?_, hbitmap,
    h.ready.used_eq ▸ h.ready.le, fun i hpos hi => ?_⟩
  · refine Eq.trans ?_ hbitmap
    exact hclean.home_eq _ (Geometry.not_contains_bitmapSector (g := geometry) (b := 0) (by decide))
  · have hlt : i < ninodes := hi.trans_le hnext
    have htype := (h.holds i hpos hi).type_eq
    rw [helse.dinode_eq i hlt (Nat.ne_of_lt hlt)]
    by_cases heq : i = rootino
    · subst heq
      rw [hback.dinode_eq]
      exact htype.symm ▸ kind_ne_zero rootino
    · rw [hback.elsewhere.dinode_eq i hlt heq, htype]
      exact kind_ne_zero i

section Sound

variable {v : Volume} {image : Image} {s : Fs} {b : ℕ}

theorem Mounted.used_eq (h : Mounted v image s) (hb : b < size) :
    geometry.used s b = decide (b < image.usedblocks) := by
  have hmod : b % bpb = b := Nat.mod_eq_of_lt (hb.trans (by decide))
  have hle : image.usedblocks ≤ 8 * bsize := h.used_le.trans (by decide)
  rw [Geometry.used, bitmapSector_eq hb, h.cache_bitmap, hmod, testBit_balloc hle]

theorem Mounted.bits (h : Mounted v image s) (b : ℕ) : (image.disk bitmap).testBit b = true ↔
      b < metaBlocks ∨ ∃ k, refs geometry s k = some b := by
  have hle := h.used_le
  have hsize : size - nlog ≤ size := Nat.sub_le _ _
  have howns := h.consistent.accounted.owns.used_iff b
  rw [h.bitmap_eq, testBit_balloc (hle.trans (by decide)), decide_eq_true_iff, ← howns]
  constructor
  · intro hlt
    by_cases hmeta : b < metaBlocks
    · exact Or.inl hmeta
    · refine Or.inr ⟨⟨Nat.le_of_not_lt hmeta, hlt.trans_le hle⟩, ?_⟩
      rw [h.used_eq (by omega), decide_eq_true hlt]
  · rintro (hmeta | ⟨hdata, hused⟩)
    · have hused := h.consistent.accounted.meta_used b hmeta
      rw [h.used_eq (hmeta.trans (by decide))] at hused
      exact of_decide_eq_true hused
    · rw [h.used_eq hdata.lt_size] at hused
      exact of_decide_eq_true hused

theorem Mounted.sound (h : Mounted v image s) (hnext : v.next ≤ ninodes) : Sound image s where
  inodes := h.freeinode_eq ▸ hnext
  distinct _ _ _ := h.consistent.accounted.owns.inj
  inData _ _ := h.consistent.accounted.inData
  shaped i hpos hi := by
    rw [h.freeinode_eq] at hi
    have htype := h.type_ne i hpos hi
    exact ⟨htype, h.consistent.shaped i ⟨hi.trans_le hnext, htype⟩⟩
  bits b _ := h.bits b
  read devsw ip off len hip := by
    refine ((inodeRead_meets h.consistent hip).mono (fun _ h => h) fun r hr => hr.1).exists_ok ?_
    rintro e ⟨-, hfull⟩
    rw [h.sectors_eq] at hfull
    exact absurd hfull (by decide)

/-- Where the bitmap has the counted blocks, none of them is behind the data area. -/
theorem Sound.used_le (h : Sound image s) (hbitmap : image.disk bitmap = balloc image.usedblocks)
    (hused : image.usedblocks ≤ 8 * bsize) : image.usedblocks ≤ size - nlog := by
  by_contra hlt
  have hbit := (h.bits (size - nlog) (by decide)).mp (by
    rw [hbitmap, testBit_balloc hused]
    exact decide_eq_true (Nat.lt_of_not_le hlt))
  obtain hmeta | ⟨k, hk⟩ := hbit
  · exact absurd hmeta (by decide)
  · exact Nat.lt_irrefl _ (h.inData k _ hk).2

/-- **A full root directory lacks a block.** If its entries fill the last block, the rounded
size asks for one more. -/
theorem Builds.full_root (h : Builds image v) (hroot : rootino < v.next)
    (hfull : (v.content rootino).length % bsize = 0)
    (hlen : (v.content rootino).length / bsize < ndirect)
    (hmount : Fs.mount image.close.disk = some s) :
    (s.dinode rootino).size.toNat = (v.content rootino).length + bsize ∧
      (s.dinode rootino).blockAt s.cache ((v.content rootino).length / bsize) = 0 := by
  have hlt : rootino < ninodes := by decide
  have hholds := h.holds rootino Nat.one_pos hroot
  have hdinode : s.dinode rootino = { image.view.dinode rootino with
      size := BitVec.ofNat 32 (roundUp (v.content rootino).length) } := by
    rw [Fs.dinode, h.cache_eq hmount (plain_iblock (g := geometry) hlt).not_contains,
      Image.rounded, view_setInode hlt, ← Fs.dinode, dinode_put, hholds.size_eq]
  refine ⟨?_, ?_⟩
  · rw [hdinode, BitVec.toNat_ofNat]
    unfold roundUp ndirect bsize at *
    omega
  · have hshaped := h.consistent.shaped rootino (hholds.allocated hlt (kind_ne_zero rootino))
    have hslot := (hshaped.blockAt_eq_zero_iff (hlen.trans (by decide))).mpr (by
      rw [hholds.size_eq, lt_fileSlots]
      unfold bsize at *
      omega)
    rw [Dinode.blockAt_of_lt hlen] at hslot ⊢
    rw [hdinode]
    exact hslot

theorem Builds.not_sound (h : Builds image v) (hroot : rootino < v.next)
    (hfull : (v.content rootino).length % bsize = 0)
    (hlen : (v.content rootino).length / bsize < ndirect)
    (hmount : Fs.mount image.close.disk = some s) : ¬ Sound image.close s := by
  intro hsound
  obtain ⟨hsize, hmissing⟩ := h.full_root hroot hfull hlen hmount
  obtain ⟨-, hshaped⟩ := hsound.shaped rootino Nat.one_pos (h.freeinode_eq.symm ▸ hroot)
  refine (hshaped.slots _ (hlen.trans (by decide))).mpr ?_ hmissing
  rw [hsize, lt_fileSlots]
  unfold bsize at *
  omega

end Sound

theorem finish_returns (root : ℕ) (s : Image) :
    Returns (fun _ s' => s'.disk bitmap = balloc s'.usedblocks ∧ s'.usedblocks ≤ 8 * bsize)
      (finish root) s := by
  refine (takes_rinode root s).bind fun d s₁ _ => (takes_winode root _ s₁).bind fun _ s₂ _ => ?_
  refine Returns.get_bind ?_
  by_cases hused : s₂.usedblocks < 512 * 8
  · intro _ s' hok
    have hwrite : (require (s₂.usedblocks < 512 * 8) >>= fun _ =>
        wsect bitmap (balloc s₂.usedblocks)) s₂ =
        .ok ((), s₂.write bitmap (balloc s₂.usedblocks)) := by
      simp only [bind, StateT.bind, require_of hused, Except.bind]
      exact wsect_of_lt (by decide) _
    obtain ⟨-, rfl⟩ := Prod.mk.inj (Except.ok.inj (hok.symm.trans hwrite))
    exact ⟨write_self, Nat.le_of_lt hused⟩
  · rw [require, if_neg hused]
    intro _ s' hok
    cases hok

theorem mkfs_bitmap {files : List InputFile} {image : Image} (h : mkfs files = .ok image) :
    image.disk bitmap = balloc image.usedblocks ∧ image.usedblocks ≤ 8 * bsize := by
  have hmain : Returns (fun _ s' => s'.disk bitmap = balloc s'.usedblocks ∧
      s'.usedblocks ≤ 8 * bsize) (main files) zeroes :=
    (takes_wsect _ _ _).bind fun _ s₁ _ => (takes_makeRoot s₁).bind fun root s₂ _ =>
      (takes_files files s₂).bind fun _ s₃ _ => finish_returns root s₃
  exact mkfs_returns hmain h

theorem rootino_lt_next (files : List InputFile) : rootino < (Volume.ofFiles files).next := by
  rw [Volume.next_ofFiles]
  exact Nat.lt_add_left _ (by decide)

theorem root_length_mod (files : List InputFile) :
    ((Volume.ofFiles files).content rootino).length % bsize = 0 ↔ (files.length + 2) % 32 = 0 := by
  rw [Volume.length_root]
  unfold direntSize bsize
  omega

theorem root_length_lt (files : List InputFile) (h : files.length + 2 ≤ ninodes) :
    ((Volume.ofFiles files).content rootino).length / bsize < ndirect := by
  rw [Volume.length_root]
  unfold direntSize bsize ndirect
  unfold ninodes at h
  omega

/-- **The image is in order** just if there are inodes for all files, the blocks end before the
log, and the entries of the root directory do not fill its last block.  That is so for every list
of files on which `mkfs` exits with status 0. -/
theorem mkfs_image_sound {files : List InputFile} {image : Image}
    (hmkfs : mkfs files = .ok image) :
    (∃ s, Fs.mount image.disk = some s ∧ Sound image s) ↔
      files.length + 2 ≤ ninodes ∧ metaBlocks + blocksOf files ≤ size - nlog ∧
        (files.length + 2) % 32 ≠ 0 := by
  constructor
  · rintro ⟨s, hmount, hsound⟩
    obtain ⟨hinode, hused⟩ := mkfs_counters hmkfs
    obtain ⟨hbitmap, hle⟩ := mkfs_bitmap hmkfs
    have hinodes : files.length + 2 ≤ ninodes := hinode ▸ hsound.inodes
    have hblock : image.freeblock ≤ geometry.dataEnd := hused ▸ hsound.used_le hbitmap hle
    obtain ⟨s₀, hbuilds, rfl⟩ :=
      (mkfs_meets hinodes fun hfalse : False => hfalse.elim).of_ok hmkfs (Or.inr hblock)
    refine ⟨hinodes, ?_, fun hfull => ?_⟩
    · have hend : s₀.freeblock ≤ size - nlog := hblock
      rwa [hbuilds.freeblock_eq, Volume.blocks_ofFiles] at hend
    · exact hbuilds.not_sound (rootino_lt_next files) ((root_length_mod files).mpr hfull)
        (root_length_lt files hinodes) hmount hsound
  · rintro ⟨hinodes, hblocks, hround⟩
    have hfits := Volume.fits_ofFiles hinodes hblocks
    obtain ⟨s₀, hbuilds, rfl⟩ :=
      (mkfs_meets hinodes fun _ : True => hfits).of_ok hmkfs (Or.inl trivial)
    obtain ⟨s, hmounted⟩ := hbuilds.mounted (rootino_lt_next files) hfits.inodes
      ((root_length_mod files).not.mpr hround)
    exact ⟨s, hmounted.mount_eq, hmounted.sound hfits.inodes⟩

def sampleFile : InputFile := ⟨[0x61], [[0x78]], by decide, by decide⟩

def sampleEmpty : InputFile := ⟨[0x61], [], by decide, by decide⟩

theorem mkfs_image_sound_of_one_file :
    ∃ image s, mkfs [sampleFile] = .ok image ∧ Fs.mount image.disk = some s ∧ Sound image s := by
  obtain ⟨s₀, -, hmkfs⟩ := mkfs_ok [sampleFile] (by decide) (by decide) (by decide)
    (by decide)
  obtain ⟨s, hmount, hsound⟩ := (mkfs_image_sound hmkfs).mpr ⟨by decide, by decide, by decide⟩
  exact ⟨s₀.close, s, hmkfs, hmount, hsound⟩

/-- With thirty files the entries of the root directory fill its only block.  Its size is
rounded up to two blocks, and the second one is not there. -/
theorem root_block_missing :
    ∃ image s, mkfs (List.replicate 30 sampleEmpty) = .ok image ∧ Fs.mount image.disk = some s ∧
      30 + 2 ≤ ninodes ∧ metaBlocks + blocksOf (List.replicate 30 sampleEmpty) ≤ size - nlog ∧
      (s.dinode rootino).size = 1024 ∧ (s.dinode rootino).blockAt s.cache 1 = 0 ∧
      ¬ Sound image s := by
  have hblocks : metaBlocks + blocksOf (List.replicate 30 sampleEmpty) ≤ size - nlog := by
    decide
  obtain ⟨s₀, hbuilds, hmkfs⟩ := mkfs_ok (List.replicate 30 sampleEmpty) (by decide) hblocks
    (by decide) (by decide)
  obtain ⟨s, hmount, -⟩ := hbuilds.mkfsImage.mount
  have hroot := rootino_lt_next (List.replicate 30 sampleEmpty)
  have hfull := (root_length_mod (List.replicate 30 sampleEmpty)).mpr rfl
  have hlen := root_length_lt (List.replicate 30 sampleEmpty) (by decide)
  obtain ⟨hsize, hmissing⟩ := hbuilds.full_root hroot hfull hlen hmount
  rw [Volume.length_root] at hsize hmissing
  exact ⟨s₀.close, s, hmkfs, hmount, by decide, hblocks, BitVec.eq_of_toNat_eq hsize, hmissing,
    hbuilds.not_sound hroot hfull hlen hmount⟩

end MCertikos.Mkfs
