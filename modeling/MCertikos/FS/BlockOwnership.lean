/-
# Every block has one owner

The four operations on the contents of an inode together.
-/

import MCertikos.FS.FileWrite
import MCertikos.FS.BlockRuns

namespace MCertikos.FS

open Math

universe u

section Operations

variable {g : Geometry} {s : Fs} {ip : Inode} {n : ℕ} {α : Type u} {post : α → Prop}
  {m : Except Halt α} {logs : Prop} {charge : Charge}

/-- A transaction is open, and the log and the buffers have room for this charge. -/
def HasRoom (s : Fs) (charge : Charge) : Prop :=
  s.log.busy = true ∧ charge.log < s.log.capacity ∧ charge.buffers < nbuf

instance : Decidable (HasRoom s charge) := by
  unfold HasRoom
  infer_instance

/-- The call has a result with `post` if there is room for what it logs, and stops only because
there is no room or no transaction. -/
def Completes (s : Fs) (logs : Prop) (charge : Charge) (post : α → Prop) (m : Except Halt α) :
    Prop :=
  ((logs → HasRoom s charge) → ∃ r, m = .ok r ∧ post r) ∧
    Meets (fun e => logs ∧ Allowed s.log charge e) post m

theorem HasRoom.not_allowed (h : HasRoom s charge) (e : Halt) : ¬ Allowed s.log charge e := by
  obtain ⟨hbusy, hlog, hbuffers⟩ := h
  intro hallowed
  cases e with
  | tooBigTransaction => exact absurd hallowed (Nat.not_le_of_lt hlog)
  | noBuffers => exact absurd hallowed (Nat.not_le_of_lt hbuffers)
  | writeOutsideTrans => exact absurd (hbusy.symm.trans hallowed) (by decide)
  | _ => exact hallowed

theorem completes_of_meets (h : Meets (fun e => logs ∧ Allowed s.log charge e) post m) :
    Completes s logs charge post m :=
  ⟨fun hroom => h.exists_ok fun e he => (hroom he.1).not_allowed e he.2, h⟩

/-- The file system is consistent, and the inodes other than `i` and their blocks are as
they were. -/
def Preserved (g : Geometry) (i : ℕ) (s s' : Fs) : Prop := Consistent g s' ∧ Elsewhere g i s s'

/-- `inode_put` frees the inode: its last reference goes, and it has no links. -/
def Frees (ip : Inode) : Prop := ip.ref = 1 ∧ ip.valid = true ∧ ip.nlink = 0

/-- **Ownership of blocks.** In every consistent file system, `inode_write` with enough data
blocks free, `inode_trunc` and `inode_put` end in a consistent file system and change no other
inode and no block of one, if the log and the buffers have room for the sectors they touch.  If
not, they may stop in `log_write` or `bufcache_get`, but never because a free block is freed or
a block out of range is mapped.  `inode_read` changes nothing at all. -/
theorem inode_operations_keep_ownership (h : Consistent g s) (hip : Synced g s ip)
    (devsw : ℕ → Devsw) :
    (∀ src off len, (WriteFits ip off len → EnoughFree g s ip off len) →
      Completes s (WriteLogs ip off len) (writeCharge g s ip off len)
        (fun r => Preserved g ip.inum.toNat s r.2.2 ∧ Synced g r.2.2 r.2.1)
        (s.inodeWrite devsw ip src off len)) ∧
    Completes s True (truncCharge g s ip)
      (fun r => Preserved g ip.inum.toNat s r.2 ∧ Synced g r.2 r.1) (s.inodeTrunc ip) ∧
    (ip.busy = false → Completes s (Frees ip) (putCharge g s ip)
      (fun r => Preserved g ip.inum.toNat s r.2) (s.inodePut ip)) ∧
    ∀ off len, Meets (Pinned s) (fun r => r.2.2 = (ip, s)) (s.inodeRead devsw ip off len) := by
  refine ⟨fun src off len hfree => completes_of_meets ?_, completes_of_meets ?_,
    fun hidle => completes_of_meets ?_, fun off len =>
      (inodeRead_meets h hip).mono (fun _ h => h) fun _ hread => hread.1⟩
  · refine (inodeWrite_meets h hip hfree).mono (fun _ h => h) ?_
    rintro r ⟨⟨⟨hconsistent, helse, hsynced⟩, -⟩, -⟩
    exact ⟨⟨hconsistent, helse⟩, hsynced⟩
  · refine (inodeTrunc_meets h hip).mono (fun _ he => ⟨trivial, he⟩) ?_
    rintro r ⟨htrunc, -⟩
    exact ⟨⟨htrunc.consistent, htrunc.elsewhere⟩, htrunc.synced⟩
  · refine (inodePut_meets h hip hidle).mono (fun _ h => h) ?_
    rintro r ⟨hpreserved, -⟩
    exact hpreserved

theorem blockAt_of_direct {d : Dinode} {start n : ℕ} (hn : n < ndirect)
    (haddr : ∀ j, d.addr j = if j < n then BitVec.ofNat 32 (start + j) else 0) (cache : Disk)
    (p : ℕ) : d.blockAt cache p = if p < n then BitVec.ofNat 32 (start + p) else 0 := by
  have hind : d.addr ndirect = 0 := by rw [haddr, if_neg (by omega)]
  by_cases hp : p < ndirect
  · rw [Dinode.blockAt_of_lt hp, haddr]
  · rw [if_neg (by omega), Dinode.blockAt, if_neg hp, Dinode.entry, if_pos hind, hind, ite_self,
      ite_self]

/-- **A file system in which one file has blocks**: the first `n` data blocks, in the direct
addresses of inode `i`. -/
theorem consistent_of_direct (i : ℕ) (hok : FsOk g s) (hmeta : ∀ b < g.dataStart, g.used s b = true)
    (hn : n < ndirect) (hend : g.dataStart + n ≤ g.dataEnd)
    (hbits : ∀ b, g.InData b → g.used s b = decide (b < g.dataStart + n))
    (halloc : 0 < n → InodeAllocated g s i)
    (haddr : ∀ k, InodeAllocated g s k → ∀ j, (s.dinode k).addr j =
      if j < (if k = i then n else 0) then BitVec.ofNat 32 (g.dataStart + j) else 0)
    (hsize : ∀ k, InodeAllocated g s k →
      fileSlots (s.dinode k).size.toNat = if k = i then n else 0) :
    Consistent g s := by
  have hlt : g.dataStart + n < 2 ^ 32 := by
    have := g.size_lt
    have := g.dataEnd_le_size
    omega
  have hcount : ∀ k, (if k = i then n else 0) ≤ n := fun k => by split <;> omega
  have hblockAt : ∀ k, InodeAllocated g s k → ∀ p, (s.dinode k).blockAt s.cache p = _ := fun k hk =>
    blockAt_of_direct (Nat.lt_of_le_of_lt (hcount k) hn) (haddr k hk) s.cache
  have hnumber : ∀ p < n, blockNumber (BitVec.ofNat 32 (g.dataStart + p)) =
      some (g.dataStart + p) := by
    intro p hp
    have hfour := g.four_le_dataStart
    exact blockNumber_ofNat (by omega) (by omega)
  have hrefs : ∀ k p, refs g s (k, p) = if k = i ∧ p < n then some (g.dataStart + p) else none := by
    intro k p
    by_cases hk : InodeAllocated g s k
    · rw [refs, if_pos hk, Dinode.refs, hblockAt k hk]
      by_cases hki : k = i
      · rw [if_pos hki, apply_ite blockNumber, blockNumber_zero]
        by_cases hp : p < n
        · rw [if_pos hp, if_pos ⟨hki, hp⟩, hnumber p hp]
        · rw [if_neg hp, if_neg (by omega)]
      · rw [if_neg hki, if_neg (Nat.not_lt_zero p), if_neg (by omega), blockNumber_zero]
    · rw [refs, if_neg hk, if_neg]
      rintro ⟨rfl, hp⟩
      exact hk (halloc (by omega))
  refine ⟨⟨hok, hmeta, ⟨?_, fun b => ⟨?_, ?_⟩⟩⟩, fun k hk => ?_⟩
  · rintro ⟨k, p⟩ ⟨l, q⟩ b hk hl
    rw [hrefs, Option.ite_none_right_eq_some, Option.some.injEq] at hk hl
    rw [hk.1.1, hl.1.1, show p = q by omega]
  · rintro ⟨hdata, hused⟩
    rw [hbits b hdata, decide_eq_true_eq] at hused
    have hstart := hdata.1
    exact ⟨(i, b - g.dataStart), by
      rw [hrefs, if_pos ⟨rfl, by omega⟩, Nat.add_sub_cancel' hstart]⟩
  · rintro ⟨⟨k, p⟩, hk⟩
    rw [hrefs, Option.ite_none_right_eq_some, Option.some.injEq] at hk
    obtain ⟨⟨-, hp⟩, rfl⟩ := hk
    have hdata : g.InData (g.dataStart + p) := ⟨by omega, by omega⟩
    exact ⟨hdata, by rw [hbits _ hdata, decide_eq_true (by omega)]⟩
  · have hle := hcount k
    rw [hsize k hk]
    refine ⟨by have := hle.trans hn.le; unfold maxfile; omega, fun p _ => ?_, ?_⟩
    · rw [hblockAt k hk, ne_eq, ite_eq_right_iff, Classical.not_imp]
      refine and_iff_left_of_imp fun hp heq => ?_
      have hsome := hnumber p (by omega)
      rw [heq] at hsome
      cases hsome
    · rw [haddr k hk, if_neg (by omega)]
      exact iff_of_false (fun hne => hne rfl) (by omega)

theorem consistent_of_empty (hok : FsOk g s) (hmeta : ∀ b < g.dataStart, g.used s b = true)
    (hfree : ∀ b, g.InData b → g.used s b = false)
    (haddr : ∀ i < g.ninodes, ∀ j, (s.dinode i).addr j = 0)
    (hsize : ∀ i < g.ninodes, (s.dinode i).size = 0) : Consistent g s := by
  refine consistent_of_direct 0 hok hmeta (by decide : 0 < ndirect) g.dataStart_le_dataEnd
    (fun b hb => ?_) (fun hpos => absurd hpos (Nat.lt_irrefl 0)) (fun i hi j => ?_) fun i hi => ?_
  · rw [hfree b hb, Nat.add_zero, decide_eq_false (Nat.not_lt_of_le hb.1)]
  · rw [haddr i hi.1, ite_self, if_neg (Nat.not_lt_zero j)]
  · rw [hsize i hi.1, ite_self]
    rfl

/-- **A disk as it is given.** Finitely many bits, addresses and sizes decide whether it is such a
file system. -/
theorem consistent_of_check (i n : ℕ) {sb : Superblock}
    (hsb : Superblock.decode (s.cache 1) = sb) (hdescribes : g.Describes sb)
    (hregion : s.log.toRegion = g.region) (hlh : s.log.lh.n = 0)
    (hempty : (s.cache g.region.start).word 0 = 0) (hn : n < ndirect)
    (hend : g.dataStart + n ≤ g.dataEnd)
    (hbits : ∀ b < g.dataEnd, g.used s b = decide (b < g.dataStart + n))
    (halloc : 0 < n → InodeAllocated g s i)
    (haddr : ∀ k < g.ninodes, ∀ j < ndirect + 1, (s.dinode k).addr j =
      if j < (if k = i then n else 0) then BitVec.ofNat 32 (g.dataStart + j) else 0)
    (hsize : ∀ k < g.ninodes, fileSlots (s.dinode k).size.toNat = if k = i then n else 0) :
    Consistent g s := by
  have hclean : g.region.Clean s.cache s.cache := ⟨fun _ _ => rfl, hempty⟩
  have hlog : s.LogOk := by
    rw [Fs.LogOk, hregion]
    exact hclean.logged region_size_pos hlh
  refine consistent_of_direct i ⟨hsb ▸ hdescribes, hregion, hlog⟩ (fun b hb => ?_) hn hend
    (fun b hb => hbits b hb.2) halloc (fun k hk j => ?_) fun k hk => hsize k hk.1
  · rw [hbits b (by omega), decide_eq_true (by omega)]
  · by_cases hj : j < ndirect + 1
    · exact haddr k hk.1 j hj
    · rw [if_neg (by split <;> omega)]
      exact dif_neg hj

end Operations

/-! ## A file system with one empty file -/

def emptyFile : Dinode := ⟨2, 0, 0, 0, 0, fun _ => 0⟩

def oneFileFs : Fs where
  cache sector := if sector = 2 then emptyFile.encode (fun _ => 0) 1 else smallDisk 5 sector
  log := (Log.boot smallGeometry.region).beginTrans

def oneFile : Inode := { emptyFile with inum := 1, ref := 1, busy := false, valid := true }

theorem consistent_oneFileFs : Consistent smallGeometry oneFileFs :=
  consistent_of_check 0 0 (Superblock.decode_encode _) ⟨rfl, rfl, rfl⟩ rfl rfl (by decide +kernel)
    (by decide) (by decide) (by decide +kernel) (fun h => absurd h (Nat.lt_irrefl 0))
    (by decide +kernel) (by decide +kernel)

theorem synced_oneFile : Synced smallGeometry oneFileFs oneFile where
  inum_lt := by decide
  dinode_eq := Dinode.decode_encode (by decide)
  allocated := by decide

/-- Seven blocks written to the empty file are the most that fit: with the bitmap they are eight
sectors before the inode is written back. -/
theorem inode_operations_on_one_file :
    (∃ r, oneFileFs.inodeWrite (fun _ => ⟨none, none⟩) oneFile (fun _ => 1) 0 3584 = .ok r ∧
      Preserved smallGeometry 1 oneFileFs r.2.2) ∧
    ∃ r, oneFileFs.inodePut oneFile = .ok r ∧ Preserved smallGeometry 1 oneFileFs r.2 := by
  obtain ⟨hwrite, -, hput, -⟩ := inode_operations_keep_ownership consistent_oneFileFs
    synced_oneFile fun _ => ⟨none, none⟩
  obtain ⟨r, hr, hpreserved, -⟩ :=
    (hwrite (fun _ => 1) 0 3584 fun _ => by decide +kernel).1 fun _ => by decide +kernel
  exact ⟨⟨r, hr, hpreserved⟩, (hput rfl).1 fun _ => by decide +kernel⟩

/-- Writing 5120 bytes to the empty file in one transaction: ten data blocks and the
bitmap do not fit the log, and `log_write` panics. -/
theorem inodeWrite_of_ten_blocks_stops :
    Consistent smallGeometry oneFileFs ∧ Synced smallGeometry oneFileFs oneFile ∧
      oneFileFs.log.busy = true ∧ EnoughFree smallGeometry oneFileFs oneFile 0 5120 ∧
      oneFileFs.inodeWrite (fun _ => ⟨none, none⟩) oneFile (fun _ => 1) 0 5120 =
        .error .tooBigTransaction := by
  refine ⟨consistent_oneFileFs, synced_oneFile, rfl, by decide +kernel, ?_⟩
  exact eq_error_of_stopOf (by decide +kernel)

end MCertikos.FS
