/-
# Reading, writing and stating through descriptors

The handlers of `sys_read`, `sys_write` and `sys_fstat` over the file table, the inode cache and
the memory of the user.
-/

import MCertikos.FS.FileOps
import MCertikos.FS.Path
import MCertikos.UserMem.Syscalls

namespace MCertikos.FS

open Math UserMem
open Sysfile (Byte)

/-! ## The handlers -/

structure FileEntry extends Sysfile.File where
  /-- The pointer `ip` is null. -/
  noInode : Bool

structure Descriptors where
  fds : ℕ → Option ℕ
  ftable : ℕ → FileEntry

def Descriptors.store (files : Descriptors) (f : ℕ) (file : Sysfile.File) : Descriptors :=
  { files with ftable := Function.update files.ftable f { files.ftable f with toFile := file } }

theorem Descriptors.store_self (files : Descriptors) (f : ℕ) (file : Sysfile.File) :
    (files.store f file).ftable f = { files.ftable f with toFile := file } :=
  Function.update_self ..

structure Reply (φ : Type) where
  errno : Errno
  retval : ℤ
  user : Memory φ
  kernBuf : Bytes kernBufSize
  files : Descriptors

structure FileStat where
  type : BitVec 16
  dev : BitVec 32
  ino : BitVec 32
  nlink : BitVec 16
  size : BitVec 32

def fileStatSize : BitVec 32 := 20

def inodeStat (ip : CachedInode) : FileStat := ⟨ip.type, ip.dev, ip.inum, ip.nlink, ip.size⟩

section Model

variable (devsw : ℕ → Devsw)

def fileRead (f : FileEntry) (n : BitVec 32) : CacheM (ℤ × List Byte × Sysfile.File) :=
  if f.readable = false then return (-1, [], f.toFile)
  else if f.type = .inode then
    if f.noInode then kernPanic .inodeLock
    else do
      inodeLock f.ip
      let (r, data) ← inodeRead devsw f.ip f.off n
      inodeUnlock f.ip
      return (r, data, advance f.toFile r)
  else kernPanic .fileRead

def fileStat (f : FileEntry) : CacheM (ℤ × Option FileStat) :=
  if f.type = .inode then
    if f.noInode then kernPanic .inodeLock
    else do
      inodeLock f.ip
      let c ← get
      let st := inodeStat (c.inode f.ip)
      inodeUnlock f.ip
      return (0, some st)
  else return (-1, none)

def checkIo (files : Descriptors) (fd userBuf n : BitVec 32) : Except Errno ℕ :=
  if fd.toInt < 0 ∨ (nofile : ℤ) ≤ fd.toInt then .error .badf
  else if illegalUserBuf userBuf n then .error .invalAddr
  else
    match files.fds fd.toNat with
    | none => .error .badf
    | some f => if (files.ftable f).noInode then .error .badf else .ok f

def checkStat (files : Descriptors) (fd userStp : BitVec 32) : Option ℕ :=
  if fd.toInt < 0 ∨ (nofile : ℤ) ≤ fd.toInt ∨ userStp < vmUserlo ∨
      vmUserhi < userStp + fileStatSize then none
  else files.fds fd.toNat

variable {φ : Type} [DecidableEq φ] (vm : Vm φ) (pid : ℕ) (kernBufAddr : BitVec 32)
  (kernBuf : Bytes kernBufSize) (user : Memory φ) (files : Descriptors)

def sysRead (fd userBuf n : BitVec 32) : CacheM (Reply φ) :=
  match checkIo files fd userBuf n with
  | .error errno => return ⟨errno, -1, user, kernBuf, files⟩
  | .ok f => do
    let (r, data, file) ← fileRead devsw (files.ftable f) n
    let kernBuf := fill kernBuf data
    let user := if 0 < r then
        user.ptCopyout vm kernBuf.byte pid userBuf kernBufAddr (BitVec.ofInt 32 r)
      else user
    return ⟨.succ, r, user, kernBuf, files.store f file⟩

def sysWrite (fd userBuf n : BitVec 32) : CacheM (Reply φ) :=
  match checkIo files fd userBuf n with
  | .error errno => return ⟨errno, -1, user, kernBuf, files⟩
  | .ok f => do
    let (user, copied) := user.ptCopyin vm pid userBuf kernBufAddr n
    let kernBuf := fill kernBuf copied
    let (r, file) ← fileWrite devsw (files.ftable f).toFile kernBuf.byte n.toInt
    return ⟨.succ, r, user, kernBuf, files.store f file⟩

def sysFstat (kernStAddr fd userStp : BitVec 32) : CacheM (Reply φ) :=
  match checkStat files fd userStp with
  | none => return ⟨.badf, -1, user, kernBuf, files⟩
  | some f => do
    let (user, _) := user.ptCopyin vm pid userStp kernStAddr fileStatSize
    let (state, _) ← fileStat (files.ftable f)
    return ⟨if state = 0 then .succ else .badf, state, user, kernBuf, files⟩

end Model

/-! ## The file layer -/

structure Usable (c : InodeCache) (f : FileEntry) : Prop where
  has_inode : f.noInode = false
  live : c.Live f.ip
  unlocked : (c.inode f.ip).busy = false
  allocated : (c.dinodeOf f.ip).type ≠ 0

structure CanRead (c : InodeCache) (f : FileEntry) (n : ℕ) : Prop where
  readable : f.readable = true
  type_eq : f.type = .inode
  not_device : (c.dinodeOf f.ip).type ≠ tDev
  off_le : f.off.toNat ≤ (c.dinodeOf f.ip).size.toNat
  no_wrap : f.off.toNat + n < 2 ^ 32

structure CanWrite (g : Geometry) (c : InodeCache) (f : FileEntry) (n : ℕ) : Prop where
  writable : f.writable = true
  type_eq : f.type = .inode
  not_device : (c.dinodeOf f.ip).type ≠ tDev
  fits : Fits (c.dinodeOf f.ip) f.off.toNat n
  free : BlocksFree g c f.toFile n

/-- The file is open for writing, and the largest file has room for all of the write. -/
def WritesAll (c : InodeCache) (f : FileEntry) (n : ℕ) : Prop :=
  f.writable = true ∧
    (0 < n → (c.dinodeOf f.ip).type ≠ tDev ∧ Fits (c.dinodeOf f.ip) f.off.toNat n)

section FileLayer

variable {g : Geometry} {c : InodeCache} {f : FileEntry} {devsw : ℕ → Devsw} {n : BitVec 32}

def InodeCache.bytesAt (c : InodeCache) (f : FileEntry) (n : ℕ) : List Byte :=
  ((c.contentOf f.ip).drop f.off.toNat).take n

structure Held (c : InodeCache) (f : FileEntry) (c' : InodeCache) : Prop where
  fs_eq : c'.fs = c.fs
  slot_eq : c'.inode f.ip = { c.inode f.ip with
    toDinode := c.dinodeOf f.ip, busy := true, valid := true }

theorem Usable.lock (h : c.Inv g) (hu : Usable c f) :
    Meets (Stuck.Halts (Pinned c.fs)) (fun r => Held c f r.2) (inodeLock f.ip c) := by
  refine (inodeLock_meets hu.live hu.unlocked fun _ => hu.allocated).mono (fun _ he => he) ?_
  rintro _ rfl
  refine ⟨rfl, InodeCache.setInode_self.trans ?_⟩
  rw [h.lockedInode_eq hu.live]

namespace Held

variable {c' : InodeCache}

theorem synced (h : c.Inv g) (hu : Usable c f) (hheld : Held c f c') :
    Synced g c'.fs (c'.inode f.ip).toInode := by
  rw [hheld.fs_eq, hheld.slot_eq]
  exact ⟨h.inum_lt f.ip hu.live, rfl, hu.allocated⟩

theorem unlock (hu : Usable c f) (hheld : Held c f c') :
    ∃ c'', inodeUnlock f.ip c' = .ok ((), c'') := by
  refine ⟨_, inodeUnlock_of_busy ?_ ?_⟩
  · rw [InodeCache.Live, hheld.slot_eq]
    exact hu.live
  · rw [hheld.slot_eq]

theorem inodeRead (h : c.Inv g) (hu : Usable c f) (hread : CanRead c f n.toNat)
    (hheld : Held c f c') : Meets (Stuck.Halts (Pinned c.fs))
      (fun r => r = ((((c.bytesAt f n.toNat).length : ℤ), c.bytesAt f n.toNat), c'))
      (FS.inodeRead devsw f.ip f.off n c') := by
  have hsynced := hheld.synced h hu
  have hdinode : (c'.inode f.ip).toDinode = c.dinodeOf f.ip := by rw [hheld.slot_eq]
  have hcontent := inodeRead_content devsw (hheld.fs_eq ▸ h.consistent) hsynced
    (by rw [hdinode]; exact hread.not_device) (by rw [hdinode]; exact hread.off_le) hread.no_wrap
  rw [hdinode, hheld.fs_eq] at hcontent
  refine runInode_of_same ?_
  rw [hheld.fs_eq]
  refine Meets.map (hcontent.mono (fun _ he => he) ?_)
  rintro _ rfl
  rfl

theorem inodeRead_refused (hdriver : ∀ major, (devsw major).read = none) (hheld : Held c f c')
    (htype : f.type = .inode) (hreadable : f.readable = true) (hnot : ¬ CanRead c f n.toNat) :
    Meets (Stuck.Halts (Pinned c.fs)) (fun r => r = ((-1, []), c'))
      (FS.inodeRead devsw f.ip f.off n c') := by
  have hdinode : (c'.inode f.ip).toDinode = c.dinodeOf f.ip := by rw [hheld.slot_eq]
  have hrefused : c'.fs.inodeRead devsw (c'.inode f.ip).toInode f.off n =
      .ok (-1, [], (c'.inode f.ip).toInode, c'.fs) := by
    unfold Fs.inodeRead
    by_cases hdev : (c'.inode f.ip).type = tDev
    · have hnone : ((c'.inode f.ip).device devsw).bind Devsw.read = none := by
        unfold Inode.device
        split
        · rfl
        · exact hdriver _
      rw [if_pos hdev, hnone]
      rfl
    · rw [if_neg hdev, if_pos]
      · rfl
      · by_contra hcheck
        rw [hdinode] at hdev hcheck
        refine hnot ⟨hreadable, htype, hdev, ?_, ?_⟩ <;> bv_omega
  refine runInode_of_same ?_
  rw [hrefused]
  rfl

end Held

/-- **What `file_read` returns**: the bytes at the offset, which moves behind them. -/
theorem fileRead_meets (h : c.Inv g) (hu : Usable c f) (hread : CanRead c f n.toNat) :
    Meets (Stuck.Halts (Pinned c.fs))
      (fun r => r.1 = (((c.bytesAt f n.toNat).length : ℤ), c.bytesAt f n.toNat,
        advance f.toFile (c.bytesAt f n.toNat).length))
      (fileRead devsw f n c) := by
  unfold fileRead
  rw [hread.readable, if_neg Bool.true_eq_false.mp, if_pos hread.type_eq, hu.has_inode,
    if_neg Bool.false_ne_true]
  refine Meets.bind_state (hu.lock h) ?_
  rintro ⟨⟩ c₁ hheld
  refine Meets.bind_state (hheld.inodeRead h hu hread) ?_
  rintro _ _ ⟨⟩
  obtain ⟨c₂, hunlock⟩ := hheld.unlock hu
  refine Meets.bind_of_ok hunlock ?_
  exact rfl

theorem fileRead_refused (h : c.Inv g) (hu : Usable c f) (htype : f.type = .inode)
    (hdriver : ∀ major, (devsw major).read = none) (hnot : ¬ CanRead c f n.toNat) :
    Meets (Stuck.Halts (Pinned c.fs)) (fun r => r.1.1 = -1) (fileRead devsw f n c) := by
  unfold fileRead
  cases hreadable : f.readable with
  | false => exact rfl
  | true =>
    rw [if_neg Bool.true_eq_false.mp, if_pos htype, hu.has_inode, if_neg Bool.false_ne_true]
    refine Meets.bind_state (hu.lock h) ?_
    rintro ⟨⟩ c₁ hheld
    refine Meets.bind_state (hheld.inodeRead_refused hdriver htype hreadable hnot) ?_
    rintro _ _ ⟨⟩
    obtain ⟨c₂, hunlock⟩ := hheld.unlock hu
    exact Meets.bind_of_ok hunlock rfl

theorem fileStat_meets (h : c.Inv g) (hu : f.type = .inode → Usable c f) :
    Meets (Stuck.Halts (Pinned c.fs))
      (fun r => r.1 = if f.type = .inode then (0, some (inodeStat { c.inode f.ip with
        toDinode := c.dinodeOf f.ip })) else (-1, none))
      (fileStat f c) := by
  unfold fileStat
  by_cases htype : f.type = .inode
  · have hu := hu htype
    rw [if_pos htype, if_pos htype, hu.has_inode, if_neg Bool.false_ne_true]
    refine Meets.bind_state (hu.lock h) ?_
    rintro ⟨⟩ c₁ hheld
    apply Meets.get_bind
    obtain ⟨c₂, hunlock⟩ := hheld.unlock hu
    refine Meets.bind_of_ok hunlock ?_
    show (0, some (inodeStat (c₁.inode f.ip))) = _
    rw [hheld.slot_eq]
    rfl
  · rw [if_neg htype, if_neg htype]
    exact rfl

end FileLayer

/-! ## What the calls report -/

def FileStat.bytes (st : FileStat) : List (ℕ × Byte) :=
  (List.range 2).map (fun j => (j, st.type.extractLsb' (8 * j) 8)) ++
  (List.range 4).map (fun j => (4 + j, Bytes.wordByte st.dev j)) ++
  (List.range 4).map (fun j => (8 + j, Bytes.wordByte st.ino j)) ++
  (List.range 2).map (fun j => (12 + j, st.nlink.extractLsb' (8 * j) 8)) ++
  (List.range 4).map (fun j => (16 + j, Bytes.wordByte st.size j))

def FileStat.At {φ : Type} (st : FileStat) (vm : Vm φ) (pid : ℕ) (uva : BitVec 32)
    (user : Memory φ) : Prop :=
  ∀ field ∈ st.bytes, user.byteAt vm pid (uva + BitVec.ofNat 32 field.1) = field.2

def InodeCache.statOf (c : InodeCache) (f : FileEntry) : FileStat :=
  inodeStat { c.inode f.ip with toDinode := c.dinodeOf f.ip }

section Checks

variable {files : Descriptors} {fd userBuf n userStp : BitVec 32} {f : ℕ} {e : Errno}

theorem errno_of_checkIo (h : checkIo files fd userBuf n = .error e) : e ≠ .succ := by
  rintro rfl
  unfold checkIo at h
  split at h
  · cases h
  split at h
  · cases h
  split at h
  · cases h
  · split at h <;> cases h

structure Checked (files : Descriptors) (fd userBuf n : BitVec 32) (f : ℕ) : Prop where
  fd_eq : files.fds fd.toNat = some f
  lo : vmUserlo.toNat ≤ userBuf.toNat
  hi : (userBuf + n).toNat ≤ vmUserhi.toNat
  size_le : n.toNat ≤ kernBufSize

theorem checked_of_checkIo (h : checkIo files fd userBuf n = .ok f) :
    Checked files fd userBuf n f := by
  unfold checkIo at h
  split at h
  · cases h
  split at h
  · cases h
  next hlegal =>
  rw [illegalUserBuf, decide_eq_true_eq, not_or, not_or, BitVec.lt_def, BitVec.lt_def] at hlegal
  split at h
  · cases h
  · next f' hfd =>
    split at h
    · cases h
    · cases h
      exact ⟨hfd, by omega, by omega, by omega⟩

theorem Checked.toInt_eq (h : Checked files fd userBuf n f) : n.toInt = (n.toNat : ℤ) := by
  have hle := h.size_le
  unfold kernBufSize at hle
  exact BitVec.toInt_eq_toNat_of_lt (by omega)

theorem fd_of_checkStat (h : checkStat files fd userStp = some f) :
    files.fds fd.toNat = some f := by
  unfold checkStat at h
  split at h
  · cases h
  · exact h

end Checks

def FilesUsable (c : InodeCache) (files : Descriptors) : Prop :=
  ∀ fd f, files.fds fd = some f → (files.ftable f).type = .inode → Usable c (files.ftable f)

/-- What a read of `count` bytes has left.  The offset is behind them.  If the range does not wrap
around, the buffer holds the bytes from the old offset on; if it does, and the bytes end before
the last address, nothing is copied. -/
structure Delivered {φ : Type} (vm : Vm φ) (pid : ℕ) (c : InodeCache) (f : FileEntry)
    (userBuf n : BitVec 32) (count : ℕ) (user user' : Memory φ) (f' : FileEntry) : Prop where
  off_eq : f'.off.toNat = f.off.toNat + count
  bytes : NoWrap userBuf n → ∀ j < count, (c.contentOf f.ip)[f.off.toNat + j]? =
    some (user'.byteAt vm pid (userBuf + BitVec.ofNat 32 j))
  refused : ¬ NoWrap userBuf n → userBuf.toNat + count < 2 ^ 32 → user' = user

section Calls

variable {φ : Type} {g : Geometry} {c : InodeCache} {vm : Vm φ}
  {pid : ℕ} {kernBufAddr : BitVec 32} {kernBuf : Bytes kernBufSize} {user : Memory φ}
  {files : Descriptors} {fd userBuf n : BitVec 32}

theorem length_bytesAt_le (f : FileEntry) (n : ℕ) : (c.bytesAt f n).length ≤ n ∧
      (c.bytesAt f n).length ≤ (c.dinodeOf f.ip).size.toNat - f.off.toNat := by
  rw [InodeCache.bytesAt, InodeCache.contentOf, List.length_take, List.length_drop, length_content]
  exact ⟨Nat.min_le_left _ _, Nat.min_le_right _ _⟩

theorem getElem?_bytesAt (f : FileEntry) {n j : ℕ} (hj : j < (c.bytesAt f n).length) :
    (c.contentOf f.ip)[f.off.toNat + j]? = some ((c.bytesAt f n).getD j 0) := by
  have hlt : j < n := Nat.lt_of_lt_of_le hj (length_bytesAt_le f n).1
  rw [← List.getElem_eq_getD (h := hj), ← List.getElem?_eq_getElem hj, InodeCache.bytesAt,
    List.getElem?_take_of_lt hlt, List.getElem?_drop]

theorem off_advance {f : FileEntry} {count : ℕ} (hlt : f.off.toNat + count < 2 ^ 32) :
    (advance f.toFile count).off.toNat = f.off.toNat + count := by
  unfold advance
  split
  · rw [BitVec.ofInt_natCast]
    show (f.off + BitVec.ofNat 32 count).toNat = _
    rw [BitVec.toNat_add, BitVec.toNat_ofNat, Nat.mod_eq_of_lt (by omega : count < 2 ^ 32),
      Nat.mod_eq_of_lt hlt]
  · omega

theorem CanRead.delivered [DecidableEq φ] {f : FileEntry} {fn : ℕ} (hcan : CanRead c f n.toNat)
    (hvm : vm.OwnPages) (hkva : kernBufAddr.toNat + kernBufSize ≤ vmUserhi.toNat)
    (hchecked : Checked files fd userBuf n fn) {f' : FileEntry}
    (hf' : f'.off = (advance f.toFile (c.bytesAt f n.toNat).length).off) :
    Delivered vm pid c f userBuf n (c.bytesAt f n.toNat).length user
      (if 0 < ((c.bytesAt f n.toNat).length : ℤ) then
        user.ptCopyout vm (fill kernBuf (c.bytesAt f n.toNat)).byte pid userBuf kernBufAddr
          (BitVec.ofInt 32 (c.bytesAt f n.toNat).length)
      else user) f' := by
  have hle := (length_bytesAt_le (c := c) f n.toNat).1
  have hsize := hchecked.size_le
  have hhi := hchecked.hi
  have hlt : n.toNat < 2 ^ 32 := n.isLt
  have hword : (BitVec.ofInt 32 (c.bytesAt f n.toNat).length).toNat =
      (c.bytesAt f n.toNat).length := by
    rw [BitVec.ofInt_natCast, BitVec.toNat_ofNat, Nat.mod_eq_of_lt (by omega)]
  refine ⟨?_, fun hrange j hj => ?_, fun hwrap hend => ?_⟩
  · have hwrap := hcan.no_wrap
    rw [hf', off_advance (by omega)]
  · rw [BitVec.toNat_add, Nat.mod_eq_of_lt hrange] at hhi
    rw [if_pos (by omega), Memory.ptCopyout_byteAt hvm hchecked.lo (by omega) (by omega)
      (by rw [hword]; exact hj), byte_fill hj (by omega)]
    exact getElem?_bytesAt f hj
  · -- A range of at most `kernBufSize` bytes that wraps around begins above the window.
    have hbelow : vmUserhi.toNat + kernBufSize < 2 ^ 32 := by decide
    unfold NoWrap at hwrap
    have hnot : ¬ Accepts userBuf kernBufAddr (BitVec.ofInt 32 (c.bytesAt f n.toNat).length) := by
      rintro ⟨-, hacc, -⟩
      rw [BitVec.le_def, BitVec.toNat_add, hword, Nat.mod_eq_of_lt hend] at hacc
      omega
    rw [Memory.ptCopyout, if_neg hnot, ite_self]

theorem sysRead_meets [DecidableEq φ] {devsw : ℕ → Devsw} (h : c.Inv g) (hvm : vm.OwnPages)
    (hkva : kernBufAddr.toNat + kernBufSize ≤ vmUserhi.toNat) (hfiles : FilesUsable c files)
    (hinode : ∀ f, checkIo files fd userBuf n = .ok f → (files.ftable f).type = .inode)
    (hdriver : ∀ major, (devsw major).read = none) : Meets (Stuck.Halts (Pinned c.fs))
      (fun r => ((r.1.errno = .succ ↔ r.1.retval ≠ -1) ↔
          ∀ f, checkIo files fd userBuf n = .ok f → CanRead c (files.ftable f) n.toNat) ∧
        (0 ≤ r.1.retval → ∃ f, files.fds fd.toNat = some f ∧
          Delivered vm pid c (files.ftable f) userBuf n r.1.retval.toNat user r.1.user
            (r.1.files.ftable f)))
      (sysRead devsw vm pid kernBufAddr kernBuf user files fd userBuf n c) := by
  unfold sysRead
  cases hcheck : checkIo files fd userBuf n with
  | error e =>
    exact ⟨iff_of_true (iff_of_false (errno_of_checkIo hcheck) (not_not_intro rfl))
      (fun f hf => nomatch hf), fun hr : (0 : ℤ) ≤ -1 => absurd hr (by decide)⟩
  | ok f =>
    have hchecked := checked_of_checkIo hcheck
    have husable := hfiles fd.toNat f hchecked.fd_eq (hinode f hcheck)
    by_cases hcan : CanRead c (files.ftable f) n.toNat
    · refine Meets.bind_state (fileRead_meets h husable hcan) ?_
      rintro _ c₁ ⟨⟩
      have hne : ((c.bytesAt (files.ftable f) n.toNat).length : ℤ) ≠ -1 := by omega
      refine ⟨iff_of_true (iff_of_true rfl hne) fun f' hf' => ?_, fun _ => ⟨f, hchecked.fd_eq, ?_⟩⟩
      · cases hf'
        exact hcan
      · refine hcan.delivered hvm hkva hchecked ?_
        rw [Descriptors.store_self]
    · refine Meets.bind_state (fileRead_refused h husable (hinode f hcheck) hdriver hcan) ?_
      rintro ⟨_, data, file⟩ c₁ rfl
      refine ⟨iff_of_false (fun hagree => hagree.mp rfl rfl) fun hall => hcan (hall f rfl),
        fun hr : (0 : ℤ) ≤ -1 => absurd hr (by decide)⟩

/-- The loop of `file_write` writes all bytes exactly if there are none or they fit. -/
theorem Ended.count_eq_iff {devsw : ℕ → Devsw} {f : Sysfile.File} {src : ℕ → Byte} {n : ℕ}
    {w : LoopEnd} {c' : InodeCache} (h : Ended g devsw c f src n w c') (hshort : w.short = false)
    (hdriver : ∀ major, (devsw major).write = none) : w.count = n ↔
      (0 < n → (c.dinodeOf f.ip).type ≠ tDev ∧ Fits (c.dinodeOf f.ip) f.off.toNat n) := by
  have hp := h.progress hshort
  refine ⟨fun hcount hpos => ?_, fun hfits => ?_⟩
  · have hdev : (c.dinodeOf f.ip).type ≠ tDev := fun hdev => by
      have hzero := (hp.device hdev).2 hdriver
      omega
    rw [hcount] at hp
    exact ⟨hdev, hp.fits hdev hpos⟩
  · obtain rfl | hpos := Nat.eq_zero_or_pos n
    · exact Nat.le_zero.mp hp.le
    · exact (h.all_written (hfits hpos).1 (hfits hpos).2).2

/-- **`sys_write`** reports success exactly if it writes all bytes. -/
theorem sysWrite_returns {devsw : ℕ → Devsw} (h : c.Inv g) (hfiles : FilesUsable c files)
    (hinode : ∀ f, checkIo files fd userBuf n = .ok f → (files.ftable f).type = .inode)
    (hdriver : ∀ major, (devsw major).write = none)
    (hfree : ∀ f, checkIo files fd userBuf n = .ok f →
      BlocksFree g c (files.ftable f).toFile n.toNat) :
    Returns (fun r _ => (r.errno = .succ ↔ r.retval ≠ -1) ↔
        ∀ f, checkIo files fd userBuf n = .ok f → WritesAll c (files.ftable f) n.toNat)
      (sysWrite devsw vm pid kernBufAddr kernBuf user files fd userBuf n) c := by
  unfold sysWrite
  cases hcheck : checkIo files fd userBuf n with
  | error e =>
    exact .pure (iff_of_true (iff_of_false (errno_of_checkIo hcheck) (not_not_intro rfl))
      fun f hf => nomatch hf)
  | ok f =>
    have hchecked := checked_of_checkIo hcheck
    have husable := hfiles fd.toNat f hchecked.fd_eq (hinode f hcheck)
    have hint := hchecked.toInt_eq
    have hnat : n.toInt.toNat = n.toNat := by omega
    have hvalue : ∀ src, Returns (fun r _ => r.1 ≠ -1 ↔ WritesAll c (files.ftable f) n.toNat)
        (fileWrite devsw (files.ftable f).toFile src n.toInt) c := by
      rintro src ⟨r, f'⟩ c' hok
      obtain ⟨hclosed, rfl, -⟩ | ⟨w, hwritable, hloop, hshort, -, rfl⟩ := fileWrite_returns hok
      · exact iff_of_false (not_not_intro rfl) fun hall =>
          Bool.false_ne_true (hclosed.symm.trans hall.1)
      · rw [hnat] at hloop
        have hiff := (fileWriteLoop_ended h husable.live (hfree f hcheck) hloop).count_eq_iff
          hshort hdriver
        rw [WritesAll, and_iff_right hwritable, ← hiff, hint]
        split <;> omega
    refine (hvalue _).bind ?_
    rintro ⟨r, f'⟩ c' hr
    refine .pure ?_
    show (Errno.succ = .succ ↔ r ≠ -1) ↔ _
    rw [iff_true_left rfl, hr]
    exact ⟨fun hall f hf => by cases hf; exact hall, fun hall => hall f rfl⟩

theorem sysWrite_completes (devsw : ℕ → Devsw)
    (hinode : ∀ f, checkIo files fd userBuf n = .ok f → (files.ftable f).type = .inode)
    (hquiet : ∀ f, checkIo files fd userBuf n = .ok f →
      Quiet g c (files.ftable f).toFile n.toNat ∧ (c.dinodeOf (files.ftable f).ip).type ≠ tDev) :
    ∃ r, sysWrite devsw vm pid kernBufAddr kernBuf user files fd userBuf n c = .ok r := by
  suffices hmeets : Meets (fun _ => False) (fun _ => True)
      (sysWrite devsw vm pid kernBufAddr kernBuf user files fd userBuf n c) by
    obtain ⟨r, hok, -⟩ := hmeets.exists_ok fun _ he => he
    exact ⟨r, hok⟩
  unfold sysWrite
  cases hcheck : checkIo files fd userBuf n with
  | error e => exact trivial
  | ok f =>
    have hint := (checked_of_checkIo hcheck).toInt_eq
    have hnat : n.toInt.toNat = n.toNat := by omega
    obtain ⟨hquiet, hdev⟩ := hquiet f hcheck
    obtain ⟨⟨r, c'⟩, hok⟩ := (hnat ▸ hquiet).returns devsw
      (fill kernBuf (user.ptCopyin vm pid userBuf kernBufAddr n).2).byte (hinode f hcheck) hdev
    exact Meets.bind_of_ok hok trivial

theorem byteAt_ptCopyin (m : Memory φ) (vm : Vm φ) (pid pid' : ℕ) (uva kva len va : BitVec 32) :
    (m.ptCopyin vm pid uva kva len).1.byteAt vm pid' va = m.byteAt vm pid' va := by
  have hphys : (m.ptCopyin vm pid uva kva len).1.phys = m.phys := by
    unfold Memory.ptCopyin
    split
    · exact (Memory.copyinLoop_spec m vm pid uva len.toNat).1
    · rfl
  rw [Memory.byteAt, hphys, Memory.byteAt]

theorem sysFstat_meets (h : c.Inv g) (hfiles : FilesUsable c files) (kernStAddr : BitVec 32)
    {userStp : BitVec 32} : Meets (Stuck.Halts (Pinned c.fs))
      (fun r => (r.1.errno = .succ ↔ r.1.retval ≠ -1) ∧
        (r.1.retval = 0 → ∃ f, files.fds fd.toNat = some f ∧
          ((c.statOf (files.ftable f)).At vm pid userStp r.1.user ↔
            (c.statOf (files.ftable f)).At vm pid userStp user)))
      (sysFstat vm pid kernBuf user files kernStAddr fd userStp c) := by
  unfold sysFstat
  cases hcheck : checkStat files fd userStp with
  | none => exact ⟨iff_of_false (fun heq => by cases heq) (not_not_intro rfl),
      fun hr : (-1 : ℤ) = 0 => absurd hr (by decide)⟩
  | some f =>
    have hfd := fd_of_checkStat hcheck
    refine Meets.bind_state (fileStat_meets h (hfiles fd.toNat f hfd)) ?_
    rintro ⟨state, st⟩ c₁ hstate
    have hseen : ∀ va, (user.ptCopyin vm pid userStp kernStAddr fileStatSize).1.byteAt vm pid va =
        user.byteAt vm pid va := byteAt_ptCopyin user vm pid pid _ _ _
    refine ⟨?_, fun _ => ⟨f, hfd, ?_⟩⟩
    · by_cases htype : (files.ftable f).type = .inode
      · rw [if_pos htype] at hstate
        cases hstate
        have hzero : (0 : ℤ) ≠ -1 := by decide
        exact iff_of_true rfl hzero
      · rw [if_neg htype] at hstate
        cases hstate
        exact iff_of_false (fun heq => by cases heq) (not_not_intro rfl)
    · exact forall₂_congr fun field _ => iff_of_eq (congrArg (· = field.2) (hseen _))

/-- **What read, write and stat report.** Let no device have a driver, and let the file of the
descriptor, if the checks of the call pass, be an inode.  `sys_read` agrees with its error number
exactly if the checks fail or the file can be read, and then delivers the bytes of the file;
`sys_write`, with enough blocks free, exactly if the checks fail or all bytes are written.
`sys_fstat` always does, and the user's structure holds the metadata afterwards exactly if it held
them before. -/
theorem io_calls_report [DecidableEq φ] (devsw : ℕ → Devsw) (vm : Vm φ) (pid : ℕ)
    (kernBufAddr : BitVec 32) (kernBuf : Bytes kernBufSize) (user : Memory φ)
    (files : Descriptors) (fd userBuf n : BitVec 32) (h : c.Inv g) (hvm : vm.OwnPages)
    (hkva : kernBufAddr.toNat + kernBufSize ≤ vmUserhi.toNat) (hfiles : FilesUsable c files)
    (hdriver : ∀ major, (devsw major).read = none ∧ (devsw major).write = none)
    (hinode : ∀ f, checkIo files fd userBuf n = .ok f → (files.ftable f).type = .inode) :
    Meets (Stuck.Halts (Pinned c.fs))
      (fun r => ((r.1.errno = .succ ↔ r.1.retval ≠ -1) ↔
          ∀ f, checkIo files fd userBuf n = .ok f → CanRead c (files.ftable f) n.toNat) ∧
        (0 ≤ r.1.retval → ∃ f, files.fds fd.toNat = some f ∧
          Delivered vm pid c (files.ftable f) userBuf n r.1.retval.toNat user r.1.user
            (r.1.files.ftable f)))
      (sysRead devsw vm pid kernBufAddr kernBuf user files fd userBuf n c) ∧
    ((∀ f, checkIo files fd userBuf n = .ok f →
        BlocksFree g c (files.ftable f).toFile n.toNat) →
      Returns (fun r _ => (r.errno = .succ ↔ r.retval ≠ -1) ↔
          ∀ f, checkIo files fd userBuf n = .ok f → WritesAll c (files.ftable f) n.toNat)
        (sysWrite devsw vm pid kernBufAddr kernBuf user files fd userBuf n) c) ∧
    ((∀ f, checkIo files fd userBuf n = .ok f → Quiet g c (files.ftable f).toFile n.toNat ∧
        (c.dinodeOf (files.ftable f).ip).type ≠ tDev) →
      ∃ r, sysWrite devsw vm pid kernBufAddr kernBuf user files fd userBuf n c = .ok r) ∧
    ∀ kernStAddr userStp,
      Meets (Stuck.Halts (Pinned c.fs))
        (fun r => (r.1.errno = .succ ↔ r.1.retval ≠ -1) ∧
          (r.1.retval = 0 → ∃ f, files.fds fd.toNat = some f ∧
            ((c.statOf (files.ftable f)).At vm pid userStp r.1.user ↔
              (c.statOf (files.ftable f)).At vm pid userStp user)))
        (sysFstat vm pid kernBuf user files kernStAddr fd userStp c) :=
  ⟨sysRead_meets h hvm hkva hfiles hinode fun major => (hdriver major).1,
    sysWrite_returns h hfiles hinode fun major => (hdriver major).2,
    sysWrite_completes devsw hinode, fun kernStAddr _ => sysFstat_meets h hfiles kernStAddr⟩

end Calls

/-! ## Files that are open -/

def rootOpen : InodeCache :=
  (InodeCache.boot rootFs).setInode 0
    { InodeCache.zeroInode with dev := rootdev, inum := 1, ref := 1 }

theorem inv_rootOpen : rootOpen.Inv tightGeometry := by
  have hok : inodeGet rootdev 1 (InodeCache.boot rootFs) = .ok (0, rootOpen) := rfl
  exact (InodeCache.inv_boot consistent_rootFs).inodeGet (by decide) 0 rootOpen hok

theorem dinodeOf_rootOpen : rootOpen.dinodeOf 0 = rootDinode := Dinode.decode_encode (by decide)

def oneOpen (readable writable : Bool) (off : BitVec 32) : Descriptors :=
  ⟨fun fd => if fd = 0 then some 0 else none,
    fun _ => ⟨⟨.inode, 1, readable, writable, 0, off⟩, false⟩⟩

def zeroUser : Memory (ℕ × ℕ) := ⟨fun _ _ => false, fun _ _ => 0, []⟩

def pagesVm : Vm (ℕ × ℕ) := ⟨Prod.mk⟩

theorem ownPages_pagesVm : pagesVm.OwnPages := fun _ _ _ _ _ _ hframe => Prod.mk.inj hframe

theorem usable_rootOpen {f : FileEntry} (hip : f.ip = 0) (hinode : f.noInode = false) :
    Usable rootOpen f := by
  refine ⟨hinode, ?_, ?_, ?_⟩
  · rw [hip]
    exact Int.one_pos
  · rw [hip]
    rfl
  · rw [hip, dinodeOf_rootOpen]
    decide

theorem filesUsable_rootOpen {readable writable : Bool} {off : BitVec 32} :
    FilesUsable rootOpen (oneOpen readable writable off) := fun _ _ _ _ => usable_rootOpen rfl rfl

theorem canRead_rootOpen (f : ℕ) :
    CanRead rootOpen ((oneOpen true false 0).ftable f) (3 : BitVec 32).toNat := by
  have hsmall : (0 : BitVec 32).toNat + (3 : BitVec 32).toNat < 2 ^ 32 := by decide
  refine ⟨rfl, rfl, ?_, Nat.zero_le _, hsmall⟩
  exact dinodeOf_rootOpen ▸ by decide

theorem filesUsable_wideCache {readable writable : Bool} {off : BitVec 32} :
    FilesUsable wideCache (oneOpen readable writable off) := by
  intro _ _ _ _
  refine ⟨rfl, Int.one_pos, rfl, ?_⟩
  exact dinodeOf_wideCache ▸ by decide

theorem canWrite_wideCache (f : ℕ) :
    CanWrite wideGeometry wideCache ((oneOpen false true 0).ftable f) (5 : BitVec 32).toNat := by
  have hsmall : (0 : BitVec 32).toNat + (5 : BitVec 32).toNat ≤ maxfile * bsize := by decide
  refine ⟨rfl, rfl, ?_, ⟨Nat.zero_le _, hsmall⟩, (quiet_wideCache 5).free⟩
  exact dinodeOf_wideCache ▸ by decide

theorem io_calls_report_of_open :
    (∃ r, sysRead noDrivers pagesVm 1 0x100000 (fun _ => 0) zeroUser (oneOpen true false 0) 0
        0x40000000 3 rootOpen = .ok r ∧ r.1.errno = .succ ∧
      r.1.user.byteAt pagesVm 1 (0x40000000 + 2) = 0x2e) ∧
    ∃ r, sysWrite noDrivers pagesVm 1 0x100000 (fun _ => 0) zeroUser (oneOpen false true 0) 0
        0x40000000 5 wideCache = .ok r ∧ (r.1.errno = .succ ↔ r.1.retval ≠ -1) := by
  have hdrivers : ∀ major, (noDrivers major).read = none ∧ (noDrivers major).write = none :=
    fun _ => ⟨rfl, rfl⟩
  constructor
  · have hread := (io_calls_report noDrivers pagesVm 1 0x100000 (fun _ => 0) zeroUser
      (oneOpen true false 0) 0 0x40000000 3 inv_rootOpen ownPages_pagesVm (by decide)
      filesUsable_rootOpen hdrivers fun _ _ => rfl).1
    obtain ⟨r, hok, hreport, hdelivered⟩ := hread.exists_ok (not_pinned rfl)
    have hvalue : (sysRead noDrivers pagesVm 1 0x100000 (fun _ => 0) zeroUser
        (oneOpen true false 0) 0 0x40000000 3 rootOpen).toOption.map (fun r => r.1.retval) =
        some 3 := by decide +kernel
    rw [hok] at hvalue
    have hthree : r.1.retval = 3 := Option.some.inj hvalue
    obtain ⟨f, hfd, -, hbytes, -⟩ := hdelivered (by rw [hthree]; decide)
    refine ⟨r, hok, (hreport.mpr fun f _ => canRead_rootOpen f).mpr (by rw [hthree]; decide), ?_⟩
    have hbyte := hbytes (by unfold NoWrap; decide) 2 (by rw [hthree]; decide)
    have hfile : (rootOpen.contentOf 0)[0 + 2]? = some 0x2e := by
      rw [InodeCache.contentOf, dinodeOf_rootOpen]
      decide +kernel
    exact Option.some.inj (hbyte.symm.trans hfile)
  · obtain ⟨-, hreturns, hcompletes, -⟩ := io_calls_report noDrivers pagesVm 1 0x100000
      (fun _ => 0) zeroUser (oneOpen false true 0) 0 0x40000000 5 inv_wideCache ownPages_pagesVm
      (by decide) filesUsable_wideCache hdrivers fun _ _ => rfl
    have hcan := canWrite_wideCache
    obtain ⟨r, hok⟩ := hcompletes fun f _ => ⟨quiet_wideCache 5, (hcan f).not_device⟩
    refine ⟨r, hok, (hreturns (fun f _ => (quiet_wideCache 5).free) r.1 r.2 hok).mpr ?_⟩
    exact fun f _ => ⟨rfl, fun _ => ⟨(hcan f).not_device, (hcan f).fits⟩⟩

/-- **Calls that do not report what happened.** A read from a file open for writing only, and
a write to one open for reading only, return -1 and report success.  A read to a range that
wraps around returns 14 and copies nothing.  `sys_fstat` returns 0 and reports success, and the
user's structure holds another inode number. -/
theorem io_calls_misreport :
    (∃ r, sysRead noDrivers pagesVm 1 0x100000 (fun _ => 0) zeroUser (oneOpen false true 0) 0
        0x40000000 4 wideCache = .ok r ∧ r.1.errno = .succ ∧ r.1.retval = -1) ∧
    (∃ r, sysWrite noDrivers pagesVm 1 0x100000 (fun _ => 0) zeroUser (oneOpen true false 0) 0
        0x40000000 4 wideCache = .ok r ∧ r.1.errno = .succ ∧ r.1.retval = -1) ∧
    (∃ r, sysRead noDrivers pagesVm 1 0x100000 (fun _ => 0) zeroUser (oneOpen true false 18) 0
        0xfffffff0 17 rootOpen = .ok r ∧ r.1.errno = .succ ∧ r.1.retval = 14 ∧
      (rootOpen.contentOf 0)[18]? = some 0x2e ∧
      r.1.user.byteAt pagesVm 1 0xfffffff0 = 0) ∧
    ∃ r, sysFstat pagesVm 1 (fun _ => 0) zeroUser (oneOpen true false 0) 0x100000 0 0x40000000
        wideCache = .ok r ∧ r.1.errno = .succ ∧ r.1.retval = 0 ∧
      ¬ (wideCache.statOf ((oneOpen true false 0).ftable 0)).At pagesVm 1 0x40000000 r.1.user := by
  refine ⟨⟨_, rfl, rfl, rfl⟩, ⟨_, rfl, rfl, rfl⟩, ?_, ?_⟩
  · have hrun : (sysRead noDrivers pagesVm 1 0x100000 (fun _ => 0) zeroUser
        (oneOpen true false 18) 0 0xfffffff0 17 rootOpen).toOption.map (fun r =>
          (r.1.errno, r.1.retval, r.1.user.byteAt pagesVm 1 0xfffffff0)) =
        some (.succ, 14, 0) := by decide +kernel
    obtain ⟨r, hsome, hr⟩ := Option.map_eq_some_iff.mp hrun
    obtain ⟨herrno, hrest⟩ := Prod.mk.inj hr
    obtain ⟨hretval, hbyte⟩ := Prod.mk.inj hrest
    refine ⟨r, eq_ok_of_toOption hsome, herrno, hretval, ?_, hbyte⟩
    rw [InodeCache.contentOf, dinodeOf_rootOpen]
    decide +kernel
  · refine ⟨_, rfl, rfl, rfl, fun hstat => ?_⟩
    have hino : (8, 1) ∈ (wideCache.statOf ((oneOpen true false 0).ftable 0)).bytes := by
      rw [InodeCache.statOf]
      decide +kernel
    have hseen := byteAt_ptCopyin zeroUser pagesVm 1 1 0x40000000 0x100000 fileStatSize
      (0x40000000 + BitVec.ofNat 32 8)
    exact absurd (hseen.symm.trans (hstat (8, 1) hino)) (by decide)

end MCertikos.FS
