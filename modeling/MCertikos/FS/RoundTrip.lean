/-
# What is written can be read

A process writes a buffer of its memory to a file, and a process that has the file open as well
reads it.
-/

import MCertikos.FS.Descriptors

namespace MCertikos.FS

open Math UserMem

variable {φ : Type} {g : Geometry} {c c' : InodeCache} {devsw : ℕ → Devsw} {vm : Vm φ} {pid : ℕ}
  {kernBufAddr : BitVec 32} {kernBuf : Bytes kernBufSize} {user : Memory φ} {files : Descriptors}
  {fd userBuf n : BitVec 32} {f f' : ℕ} {file : Sysfile.File} {src : ℕ → BitVec 8}

theorem Checked.byte_copyin (h : Checked files fd userBuf n f) (hrange : NoWrap userBuf n)
    (hkva : kernBufAddr.toNat + kernBufSize ≤ vmUserhi.toNat) {j : ℕ} (hj : j < n.toNat) :
    (fill kernBuf (user.ptCopyin vm pid userBuf kernBufAddr n).2).byte j =
      user.byteAt vm pid (userBuf + BitVec.ofNat 32 j) := by
  have hsize := h.size_le
  have hhi := h.hi
  rw [BitVec.toNat_add, Nat.mod_eq_of_lt hrange] at hhi
  have hacc : Accepts userBuf kernBufAddr n := accepts_of_inWindow h.lo hhi (by omega)
  rw [Memory.ptCopyin_of_accepts hacc, (Memory.copyinLoop_spec user vm pid userBuf _).2.2,
    byte_fill (by simpa using hj) (by simpa using hsize)]
  simp [span, hj]

theorem Descriptors.store_of_ne {i : ℕ} (hi : i ≠ f) :
    (files.store f file).ftable i = files.ftable i :=
  Function.update_of_ne hi ..

theorem checkIo_store (fds : ℕ → Option ℕ) :
    checkIo ⟨fds, (files.store f file).ftable⟩ fd userBuf n =
      checkIo ⟨fds, files.ftable⟩ fd userBuf n := by
  have hsame : ∀ i, ((files.store f file).ftable i).noInode = (files.ftable i).noInode := by
    intro i
    by_cases hi : i = f
    · rw [hi, Descriptors.store_self]
    · rw [Descriptors.store_of_ne hi]
  simp only [checkIo, hsame]

/-- **`sys_read`** of a file that has the bytes `src` where it is read. -/
theorem sysRead_bytes [DecidableEq φ] (devsw : ℕ → Devsw) (pid : ℕ)
    (kernBuf : Bytes kernBufSize) (user : Memory φ) (h : c.Inv g) (hvm : vm.OwnPages)
    (hkva : kernBufAddr.toNat + kernBufSize ≤ vmUserhi.toNat)
    (hcheck : checkIo files fd userBuf n = .ok f) (hrange : NoWrap userBuf n)
    (hu : Usable c (files.ftable f)) (hcan : CanRead c (files.ftable f) n.toNat)
    (hdata : c.bytesAt (files.ftable f) n.toNat = (List.range n.toNat).map src) :
    Meets (Stuck.Halts (Pinned c.fs))
      (fun r => r.1.retval = (n.toNat : ℤ) ∧ ∀ j < n.toNat,
        r.1.user.byteAt vm pid (userBuf + BitVec.ofNat 32 j) = src j)
      (sysRead devsw vm pid kernBufAddr kernBuf user files fd userBuf n c) := by
  have hlength : (c.bytesAt (files.ftable f) n.toNat).length = n.toNat := by simp [hdata]
  unfold sysRead
  rw [hcheck]
  refine Meets.bind_state (fileRead_meets h hu hcan) ?_
  rintro _ c₁ ⟨⟩
  refine ⟨congrArg _ hlength, fun j hj => ?_⟩
  have hoff : (FileEntry.mk (advance (files.ftable f).toFile
      (c.bytesAt (files.ftable f) n.toNat).length) false).off = _ := rfl
  have hbyte := getElem?_bytesAt (files.ftable f) (hj.trans_eq hlength.symm)
  rw [hdata] at hbyte
  refine Option.some.inj (Eq.trans (Eq.symm ?_) (hbyte.trans (by simp [hj])))
  exact (hcan.delivered hvm hkva (checked_of_checkIo hcheck) hoff).bytes hrange j
    (hj.trans_eq hlength.symm)

/-- The entry `f'` is open for reading where the entry `f` stands. -/
structure Reopens (files : Descriptors) (f f' : ℕ) : Prop where
  ne : f' ≠ f
  has_inode : (files.ftable f').noInode = false
  readable : (files.ftable f').readable = true
  type_eq : (files.ftable f').type = .inode
  ip_eq : (files.ftable f').ip = (files.ftable f).ip
  off_eq : (files.ftable f').off = (files.ftable f).off

namespace Reopens

variable (h : Reopens files f f') (hcan : CanWrite g c (files.ftable f) n.toNat)
  (hp : Progress g devsw c (files.ftable f).toFile src n.toNat n.toNat c' file)

include h hp

theorem usable (hquiet : Quiet g c (files.ftable f).toFile n.toNat) :
    Usable c' (files.ftable f') := by
  have hready := hp.ready hquiet.ready
  have hlive := hp.live hquiet.live
  rw [hp.ip_eq] at hlive
  refine ⟨h.has_inode, ?_, ?_, ?_⟩ <;> rw [h.ip_eq]
  exacts [hlive, hready.unlocked, hready.allocated]

include hcan

theorem canRead : CanRead c' (files.ftable f') n.toNat := by
  have hsize := hp.size_eq hcan.not_device hcan.fits.1
  have hend := hcan.fits.2
  have hmax : maxfile * bsize < 2 ^ 32 := by decide
  refine ⟨h.readable, h.type_eq, ?_, ?_, ?_⟩ <;> simp only [h.ip_eq, h.off_eq]
  · exact hp.not_device hcan.not_device
  · omega
  · omega

/-- Where the write began the file has what was written. -/
theorem bytesAt : c'.bytesAt (files.ftable f') n.toNat = (List.range n.toNat).map src := by
  have hoff : (files.ftable f).off.toNat ≤ (c.contentOf (files.ftable f).ip).length := by
    rw [InodeCache.contentOf, length_content]
    exact hcan.fits.1
  rw [InodeCache.bytesAt, h.ip_eq, h.off_eq, hp.content_eq hcan.not_device, splice,
    List.append_assoc, List.drop_append_of_le_length (by simpa using hoff), List.drop_take]
  simp

end Reopens

/-- **What is written can be read.** A `sys_write` of a range of user memory that passes its
checks, on a quiet file system with room, and then a `sys_read` by any process that has the file
open at the same place, both return the length of the range.  The reader's buffer then holds the
bytes that the writer's held. -/
theorem write_then_read [DecidableEq φ] (hvm : vm.OwnPages)
    (hkva : kernBufAddr.toNat + kernBufSize ≤ vmUserhi.toNat)
    (hwrite : checkIo files fd userBuf n = .ok f) (hrange : NoWrap userBuf n)
    (hcan : CanWrite g c (files.ftable f) n.toNat)
    (hquiet : Quiet g c (files.ftable f).toFile n.toNat) {fds : ℕ → Option ℕ}
    {fd' userBuf' : BitVec 32} (hread : checkIo ⟨fds, files.ftable⟩ fd' userBuf' n = .ok f')
    (hrange' : NoWrap userBuf' n) (hreopens : Reopens files f f') (pid' : ℕ)
    (kernBuf' : Bytes kernBufSize) :
    ∃ w c₁ r c₂,
      sysWrite devsw vm pid kernBufAddr kernBuf user files fd userBuf n c = .ok (w, c₁) ∧
      sysRead devsw vm pid' kernBufAddr kernBuf' w.user ⟨fds, w.files.ftable⟩ fd' userBuf' n c₁ =
        .ok (r, c₂) ∧ w.retval = n.toNat ∧ r.retval = n.toNat ∧ ∀ j < n.toNat,
      r.user.byteAt vm pid' (userBuf' + BitVec.ofNat 32 j) =
        user.byteAt vm pid (userBuf + BitVec.ofNat 32 j) := by
  have hchecked := checked_of_checkIo hwrite
  have hint := hchecked.toInt_eq
  have hnat : n.toInt.toNat = n.toNat := by omega
  obtain ⟨file, c₁, hok, hp⟩ := (hnat ▸ hquiet).all_written devsw
    (fill kernBuf (user.ptCopyin vm pid userBuf kernBufAddr n).2).byte (by omega) hcan.writable
    hcan.type_eq hcan.not_device (hnat ▸ hcan.fits)
  rw [hnat] at hp
  have hwritten : Meets (fun _ => False) (fun r => r.2 = c₁ ∧ r.1.retval = n.toInt ∧
      r.1.files = files.store f file)
      (sysWrite devsw vm pid kernBufAddr kernBuf user files fd userBuf n c) := by
    unfold sysWrite
    rw [hwrite]
    exact Meets.bind_of_ok hok ⟨rfl, rfl, rfl⟩
  obtain ⟨⟨w, _⟩, hsysWrite, rfl, hw, hfiles⟩ := hwritten.exists_ok fun _ he => he
  have hentry : w.files.ftable f' = files.ftable f' :=
    hfiles ▸ Descriptors.store_of_ne hreopens.ne
  have hcheck : checkIo ⟨fds, w.files.ftable⟩ fd' userBuf' n = .ok f' :=
    hfiles ▸ (checkIo_store fds).trans hread
  have hmeets := sysRead_bytes devsw pid' kernBuf' w.user hp.inv hvm hkva hcheck hrange'
    (hentry ▸ hreopens.usable hp hquiet) (hentry ▸ hreopens.canRead hcan hp)
    (hentry ▸ hreopens.bytesAt hcan hp)
  obtain ⟨⟨r, c₂⟩, hsysRead, hr, hbytes⟩ := hmeets.exists_ok (not_pinned (hp.empty hquiet.empty))
  refine ⟨w, _, r, c₂, hsysWrite, hsysRead, hw.trans hint, hr, fun j hj => ?_⟩
  exact (hbytes j hj).trans (hchecked.byte_copyin hrange hkva hj)

def writerAndReader : Descriptors where
  fds fd := some fd
  ftable f := ⟨if f = 0 then wideFile else { wideFile with readable := true }, false⟩

def pidUser : Memory (ℕ × ℕ) := ⟨fun _ _ => false, fun frame _ => BitVec.ofNat 8 frame.1, []⟩

/-- Process 1 writes five bytes, and process 2 reads them. -/
theorem write_then_read_of_two : ∃ w c₁ r c₂,
    sysWrite noDrivers pagesVm 1 0x100000 (fun _ => 0) pidUser writerAndReader 0 0x40000000 5
      wideCache = .ok (w, c₁) ∧
    sysRead noDrivers pagesVm 2 0x100000 (fun _ => 0) w.user
      ⟨writerAndReader.fds, w.files.ftable⟩ 1 0x40000000 5 c₁ = .ok (r, c₂) ∧
    r.retval = 5 ∧ r.user.byteAt pagesVm 2 (0x40000000 + 4) = 1 := by
  have hrange : NoWrap 0x40000000 5 := by unfold NoWrap; decide
  have hwrite : checkIo writerAndReader 0 0x40000000 5 = .ok 0 := by decide
  have hread : checkIo ⟨writerAndReader.fds, writerAndReader.ftable⟩ 1 0x40000000 5 = .ok 1 := by
    decide
  have hcan : CanWrite wideGeometry wideCache (writerAndReader.ftable 0) (5 : BitVec 32).toNat :=
    canWrite_wideCache 0
  obtain ⟨w, c₁, r, c₂, hsysWrite, hsysRead, -, hr, hbytes⟩ := write_then_read ownPages_pagesVm
    (show (0x100000 : BitVec 32).toNat + kernBufSize ≤ vmUserhi.toNat by decide) hwrite hrange
    hcan (quiet_wideCache 5) hread hrange ⟨by decide, rfl, rfl, rfl, rfl, rfl⟩ 2 fun _ => 0
  exact ⟨w, c₁, r, c₂, hsysWrite, hsysRead, hr, hbytes 4 (by decide)⟩

end MCertikos.FS
