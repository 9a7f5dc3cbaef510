/-
# Inodes written back, allocated and committed

Three operations that keep a file system consistent and do not touch the contents of a file.
-/

import MCertikos.FS.FileWrite
import MCertikos.FS.InodeCache

namespace MCertikos.FS

open Math

section Disk

variable {g : Geometry} {s s' : Fs} {ip : Inode} {d : Dinode} {i : ℕ}

theorem withFile_of_free (hfree : ¬ InodeAllocated g s i) :
    withFile i (refs g s) (fun _ => none) = refs g s := by
  funext ⟨j, p⟩
  by_cases hj : j = i
  · rw [withFile, if_pos hj, hj, refs, if_neg hfree]
  · rw [withFile, if_neg hj]

/-! ## Transactions -/

theorem Consistent.elsewhere_of_outside (h : Consistent g s)
    (hcache : ∀ sector, ¬ g.region.Contains sector → s'.cache sector = s.cache sector) :
    Elsewhere g i s s' := by
  constructor
  · intro j hj _
    rw [Fs.dinode, hcache _ (plain_iblock hj).not_contains, Fs.dinode]
  · intro j p b _ hb
    exact hcache _ (h.accounted.inData hb).plain.not_contains

theorem used_of_outside
    (hcache : ∀ sector, ¬ g.region.Contains sector → s'.cache sector = s.cache sector) {b : ℕ}
    (hb : b < g.size) : g.used s' b = g.used s b := by
  rw [Geometry.used, hcache _ (Geometry.not_contains_bitmapSector hb), Geometry.used]

theorem Consistent.transfer (h : Consistent g s) (hok : FsOk g s')
    (hcache : ∀ sector, ¬ g.region.Contains sector → s'.cache sector = s.cache sector) :
    Consistent g s' := by
  have hacc := h.accounted
  have hnot : ∀ t : Fs, ¬ InodeAllocated g t g.ninodes := fun t halloc =>
    Nat.lt_irrefl _ halloc.1
  have hacc' : Accounted g (withFile g.ninodes (refs g s) fun _ => none) s' := by
    rw [withFile_of_free (hnot s)]
    refine ⟨hok, fun b hb => ?_, hacc.owns.congr fun b => and_congr_right fun hdata => ?_⟩
    · rw [used_of_outside hcache (Nat.lt_of_lt_of_le hb g.dataStart_le_size)]
      exact hacc.meta_used b hb
    · rw [used_of_outside hcache hdata.lt_size]
  refine h.of_elsewhere (h.elsewhere_of_outside hcache) hacc' ?_ ?_
  · intro p
    rw [refs, if_neg (hnot s')]
  · intro halloc
    exact absurd halloc (hnot s')

theorem FsOk.begin (h : FsOk g s) (hbegin : s.beginTrans = some s') :
    FsOk g s' ∧ s'.cache = s.cache := by
  obtain ⟨-, hbegin⟩ := Option.ite_none_left_eq_some.mp hbegin
  obtain rfl := Option.some.inj hbegin
  exact ⟨⟨h.superblock, h.region_eq, h.log⟩, rfl⟩

theorem wp_commitTrans_outside {log : Log} {disk : Disk} (h : log.Logged log.lh disk disk) :
    log.commitTrans.wp False (fun _ => True)
      (fun log' last => log'.toRegion = log.toRegion ∧ log'.Logged log'.lh last last ∧
        ∀ sector, ¬ log.Contains sector → last sector = disk sector) disk := by
  unfold Log.commitTrans
  by_cases hn : 0 < log.lh.n.toInt
  · rw [if_pos hn]
    apply Prog.wp_bind
    refine Log.wp_writeHead trivial trivial ?_
    refine Prog.wp_mono (Log.wp_install_erase log h.headed
      (Region.onDisk_headed h.count_le disk) _) (fun _ _ => trivial) ?_
    rintro _ last ⟨rfl, hlast⟩
    have hself : log.Clean last last := ⟨fun _ _ => rfl, hlast.empty⟩
    exact ⟨rfl, hself.logged (Nat.zero_lt_of_lt h.room) rfl, hlast.home_eq⟩
  · rw [if_neg hn]
    exact ⟨trivial, rfl, h, fun _ _ => rfl⟩

theorem FsOk.commit (h : FsOk g s) (hcommit : s.commitTrans = some s') :
    FsOk g s' ∧ ∀ sector, ¬ g.region.Contains sector → s'.cache sector = s.cache sector := by
  obtain ⟨⟨log, cache⟩, hrun, rfl⟩ := Option.map_eq_some_iff.mp hcommit
  obtain ⟨hregion, hlogged, hcache⟩ :=
    Prog.post_of_run (wp_commitTrans_outside h.log) hrun
  rw [h.region_eq] at hregion hcache
  refine ⟨⟨?_, hregion, hlogged⟩, hcache⟩
  show g.Describes (Superblock.decode (cache 1))
  rw [hcache 1 Geometry.not_contains_one]
  exact h.superblock

/-! ## Writing back an inode -/

structure SameFile (d d' : Dinode) : Prop where
  type_eq : d'.type = d.type
  size_eq : d'.size = d.size
  addrs_eq : d'.addrs = d.addrs

theorem SameFile.addr_eq {d' : Dinode} (h : SameFile d d') (j : ℕ) : d'.addr j = d.addr j := by
  rw [Dinode.addr, h.addrs_eq, Dinode.addr]

/-- The file system is consistent, the inodes other than `ip` are as they were, and `ip` in memory
agrees with the disk. -/
def Settled (g : Geometry) (s : Fs) (ip : Inode) (s' : Fs) : Prop :=
  Consistent g s' ∧ Elsewhere g ip.inum.toNat s s' ∧ Synced g s' ip

/-- What the write of one sector asks of the log and of the buffers. -/
def Fs.oneSector (s : Fs) : Charge := ⟨s.log.sectors.card, s.log.sectors.card + 1⟩

theorem inodeUpdate_keeps (h : Consistent g s) (hip : Synced g s ip) (ip' : Inode)
    (hinum : ip'.inum = ip.inum) (hsame : SameFile ip.toDinode ip'.toDinode) :
    Meets (Allowed s.log s.oneSector) (Settled g s ip') (s.inodeUpdate ip') := by
  have hacc := h.accounted
  have hi : ip'.inum.toNat < g.ninodes := hinum ▸ hip.inum_lt
  refine (inodeUpdate_meets hacc hi (Nat.le_refl _) (Finset.card_insert_le _ _)).mono
    (fun _ h => h) fun s' hwrote => ?_
  have hkept : Kept g ip'.inum.toNat (refs g s) s s := fun _ _ => rfl
  have helse := hkept.elsewhere_of_wrote hacc hacc.ok hi hwrote
  have hdinode := hacc.ok.dinode_of_wrote hi hwrote
  have hsynced : Synced g s' ip' := ⟨hi, hdinode, hsame.type_eq ▸ hip.allocated⟩
  have hblockAt : ip'.blockAt s'.cache = ip.blockAt s.cache := by
    refine Dinode.blockAt_congr hsame.addr_eq fun hind => ?_
    obtain ⟨b, hb, hused⟩ := (h.start hip).indirect hind
    rw [hb]
    exact hacc.ok.cache_of_wrote hwrote hused.1.plain.not_contains
      (iblock_ne_ofNat hi hused.1).symm
  have hstart := h.start hip
  rw [← hinum] at hstart
  refine ⟨h.of_elsewhere helse (hstart.wrote hwrote (plain_iblock hi)) (fun p => ?_)
    fun _ => ?_, helse, hsynced⟩
  · rw [refs, if_pos hsynced.inodeAllocated, hdinode, Dinode.refs, hblockAt, Dinode.refs]
  · obtain ⟨hle, hslots, hind⟩ := h.shaped_inode hip
    rw [hdinode, hsame.size_eq]
    refine ⟨hle, ?_, ?_⟩
    · rw [hblockAt]
      exact hslots
    · rw [hsame.addr_eq]
      exact hind

/-! ## Allocating an inode -/

structure InodeTaken (g : Geometry) (s : Fs) (i : ℕ) (d : Dinode) (s' : Fs) : Prop where
  inum_lt : i < g.ninodes
  free : (s.dinode i).type = 0
  consistent : Consistent g s'
  elsewhere : Elsewhere g i s s'
  dinode_eq : s'.dinode i = d

theorem Consistent.take (h : Consistent g s) (hi : i < g.ninodes) (hfree : (s.dinode i).type = 0)
    (haddr : ∀ j, d.addr j = 0) (hsize : d.size = 0)
    (hwrote : s.Wrote (iblock i) (d.encode (s.cache (iblock i)) (i % ipb)) s') :
    InodeTaken g s i d s' := by
  have hacc := h.accounted
  have hkept : Kept g i (refs g s) s s := fun _ _ => rfl
  have helse := hkept.elsewhere_of_wrote hacc hacc.ok hi hwrote
  have hdinode := hacc.ok.dinode_of_wrote hi hwrote
  have hnot : ¬ InodeAllocated g s i := fun halloc => halloc.2 hfree
  have hacc' : Accounted g (withFile i (refs g s) fun _ => none) s' := by
    rw [withFile_of_free hnot]
    exact hacc.wrote hwrote (plain_iblock hi)
  refine ⟨hi, hfree, h.of_elsewhere helse hacc' ?_ ?_, helse, hdinode⟩
  · intro p
    rw [refs, hdinode, Dinode.refs_of_addr_zero haddr, ite_self]
  · intro _
    rw [hdinode, hsize]
    exact shaped_of_addr_zero haddr

theorem freshDinode_addr (type : BitVec 16) (j : ℕ) : (Sysfile.freshDinode type).addr j = 0 := by
  unfold Dinode.addr Sysfile.freshDinode
  split <;> rfl

theorem allocInode_meets (h : Consistent g s) (type : BitVec 16) {inums : List ℕ}
    (hinums : ∀ inum ∈ inums, inum < g.ninodes) :
    Meets (Allowed s.log s.oneSector)
      (fun r => ∀ inum, r.1 = some inum →
        inum ∈ inums ∧ InodeTaken g s inum (Sysfile.freshDinode type) r.2)
      (s.allocInode type inums) := by
  induction inums with
  | nil =>
    intro inum hsome
    cases hsome
  | cons inum rest ih =>
    refine Meets.bind (Fs.bufcacheRead_nil_meets (Nat.le_succ _)) ?_
    rintro _ rfl
    have hi := hinums inum List.mem_cons_self
    by_cases hfree : (Dinode.decode (s.cache (iblock inum)) (inum % ipb)).type = 0
    · rw [if_pos hfree]
      refine Meets.bind (h.accounted.ok.logWrite_single_meets (plain_iblock hi).not_contains
        (Nat.le_refl _) (Finset.card_insert_le _ _) _) fun s' hwrote => ?_
      intro inum' hsome
      obtain rfl := Option.some.inj hsome
      exact ⟨List.mem_cons_self, h.take hi hfree (freshDinode_addr type) rfl hwrote⟩
    · rw [if_neg hfree]
      refine (ih fun inum' hmem => hinums inum' (List.mem_cons_of_mem _ hmem)).mono
        (fun _ h => h) ?_
      intro r hr inum' hsome
      obtain ⟨hmem, htaken⟩ := hr inum' hsome
      exact ⟨List.mem_cons_of_mem _ hmem, htaken⟩

theorem inodeAlloc_meets (h : Consistent g s) (type : BitVec 16) :
    Meets (Allowed s.log s.oneSector)
      (fun r => ∀ inum, r.1 = some inum →
        0 < inum ∧ InodeTaken g s inum (Sysfile.freshDinode type) r.2)
      (s.inodeAlloc type) := by
  have hread : (s.log.sectors ∪ [].toFinset).card ≤ s.oneSector.buffers := by
    rw [List.toFinset_nil, Finset.union_empty]
    exact Nat.le_succ _
  refine Meets.bind (readSuperblock_meets h.accounted.ok heldOk_nil hread) fun sb hsb => ?_
  have hmem : ∀ inum ∈ List.range' 1 (sb.ninodes.toNat - 1), 0 < inum ∧ inum < g.ninodes := by
    intro inum hinum
    rw [List.mem_range'_1, hsb.ninodes_eq] at hinum
    omega
  refine (allocInode_meets h type fun inum hinum => (hmem inum hinum).2).mono
    (fun _ h => h) ?_
  intro r hr inum hsome
  obtain ⟨hinum, htaken⟩ := hr inum hsome
  exact ⟨(hmem inum hinum).1, htaken⟩

end Disk

end MCertikos.FS
