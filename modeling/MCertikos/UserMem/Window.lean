/-
# The user window

Which user addresses the kernel can be made to access.
-/

import MCertikos.Ipc.Copy

namespace MCertikos.UserMem

open Math Pmm Thread Ipc

variable {φ : Type*} {m : Memory φ} {vm : Vm φ} {pid : ℕ} {addr : BitVec 32} {len length : ℕ}

/-! ## Pieces of a range -/

theorem noWrap_piece (hwrap : addr.toNat + length < 2 ^ 32) (hlen : len ≤ length) :
    NoWrap addr (BitVec.ofNat 32 len) := by
  unfold NoWrap
  rw [BitVec.toNat_ofNat, Nat.mod_eq_of_lt (by omega)]
  omega

theorem noWrap_advance (hwrap : addr.toNat + length < 2 ^ 32) (hlen : len ≤ length) :
    (addr + BitVec.ofNat 32 len).toNat + (length - len) < 2 ^ 32 := by
  rw [BitVec.toNat_add, BitVec.toNat_ofNat, Nat.mod_eq_of_lt (by omega : len < 2 ^ 32),
    Nat.mod_eq_of_lt (by omega)]
  omega

/-! ## The system calls -/

theorem putsPiece_le (remain : ℕ) : putsPiece remain ≤ remain := by
  unfold putsPiece
  split <;> omega

theorem putsLoop_confined {sysBuf curPos : BitVec 32} {remain : ℕ} {printed : List (BitVec 8)}
    (hm : m.Confined) (hwrap : curPos.toNat + remain < 2 ^ 32) :
    (putsLoop m vm pid sysBuf curPos remain printed).1.Confined := by
  induction m, curPos, remain, printed using putsLoop.induct vm pid sysBuf with
  | case1 m curPos printed =>
    rw [putsLoop, if_pos rfl]
    exact hm
  | case2 m curPos remain printed hremain nbytes copy hcopy =>
    rw [putsLoop, if_neg hremain, if_pos hcopy]
    exact Memory.ptCopyin_confined hm fun _ => noWrap_piece hwrap (putsPiece_le remain)
  | case3 m curPos remain printed hremain nbytes copy hcopy ih =>
    rw [putsLoop, if_neg hremain, if_neg hcopy]
    refine ih ?_ (noWrap_advance hwrap (putsPiece_le remain))
    exact Memory.ptCopyin_confined hm fun _ => noWrap_piece hwrap (putsPiece_le remain)

theorem sysPuts_confined {sysBuf strUva strLen : BitVec 32} (hm : m.Confined)
    (hwrap : vmUserlo ≤ strUva ∧ strUva + strLen ≤ vmUserhi → NoWrap strUva strLen) :
    (sysPuts m vm pid sysBuf strUva strLen).1.Confined := by
  unfold sysPuts
  split
  · exact hm
  · next hchecked => exact putsLoop_confined hm (hwrap (not_not.mp hchecked))

section Files

variable {files : OpenFiles} {kernBufAddr fd userBuf n : BitVec 32} {kernBuf : Bytes kernBufSize}

/-- The registers pass the checks of `sys_read` and `sys_write`. -/
def IoChecked (files : OpenFiles) (fd userBuf n : BitVec 32) : Prop :=
  ¬ (fd.toInt < 0 ∨ (nofile : ℤ) ≤ fd.toInt) ∧ illegalUserBuf userBuf n = false ∧
    files.legal fd.toNat = true

theorem sysWrite_confined (hm : m.Confined)
    (hwrap : IoChecked files fd userBuf n → NoWrap userBuf n) :
    (sysWrite m vm files pid kernBufAddr kernBuf fd userBuf n).1.Confined := by
  unfold sysWrite
  split_ifs with hfd hbuf hlegal
  · exact hm
  · exact hm
  · exact Memory.ptCopyin_confined hm fun _ => hwrap ⟨hfd, by simpa using hbuf, hlegal⟩
  · exact hm

theorem noWrap_of_le {size : ℤ} (hpos : 0 < size) (hle : size ≤ n.toNat)
    (hwrap : NoWrap userBuf n) : NoWrap userBuf (BitVec.ofInt 32 size) := by
  have hn := n.isLt
  unfold NoWrap at hwrap ⊢
  rw [BitVec.toNat_ofInt]
  omega

theorem sysRead_confined [DecidableEq φ] (hm : m.Confined)
    (hwrap : IoChecked files fd userBuf n → NoWrap userBuf n) :
    (sysRead m vm files pid kernBufAddr kernBuf fd userBuf n).1.Confined := by
  unfold sysRead
  split_ifs with hfd hbuf hlegal
  · exact hm
  · exact hm
  · dsimp only
    split_ifs with hpos
    · exact Memory.ptCopyout_confined hm fun _ => noWrap_of_le hpos
        (files.fileRead_le fd.toNat n.toNat kernBuf) (hwrap ⟨hfd, by simpa using hbuf, hlegal⟩)
    · exact hm
  · exact hm

end Files

section Signals

variable {sig : SigState}

theorem sysSigaction_confined [DecidableEq φ]
    {curActAddr kernActAddr signum userAct userOldact : BitVec 32}
    {kernAct : Bytes sigactionSize} (hm : m.Confined)
    (hwrap : ¬ (signum.toInt < 1 ∨ (nsig : ℤ) ≤ signum.toInt) →
      (userAct ≠ 0 → Accepts userAct kernActAddr (BitVec.ofNat 32 sigactionSize) →
        NoWrap userAct (BitVec.ofNat 32 sigactionSize)) ∧
      (userOldact ≠ 0 → Accepts userOldact curActAddr (BitVec.ofNat 32 sigactionSize) →
        NoWrap userOldact (BitVec.ofNat 32 sigactionSize))) :
    (sysSigaction m vm pid sig curActAddr kernActAddr kernAct signum userAct
      userOldact).1.Confined := by
  unfold sysSigaction
  split
  · exact hm
  · next hsignum =>
    obtain ⟨hact, hold⟩ := hwrap hsignum
    have hm' : ∀ src, (if userOldact ≠ 0 then m.ptCopyout vm src pid userOldact curActAddr
        (BitVec.ofNat 32 sigactionSize) else m).Confined := by
      intro src
      split
      · next hne => exact Memory.ptCopyout_confined hm (hold hne)
      · exact hm
    dsimp only
    split
    · next hne => exact Memory.ptCopyin_confined (hm' _) (hact hne)
    · exact hm' _

theorem sysSigreturn_confined {espAddr eipAddr : BitVec 32} (hm : m.Confined)
    (hesp : Accepts sig.savedEspAddr espAddr 4 → NoWrap sig.savedEspAddr 4)
    (heip : Accepts sig.savedEipAddr eipAddr 4 → NoWrap sig.savedEipAddr 4) :
    (sysSigreturn m vm pid sig espAddr eipAddr).1.Confined := by
  have hfirst : (m.ptCopyin vm pid sig.savedEspAddr espAddr 4).1.Confined :=
    Memory.ptCopyin_confined hm hesp
  have hsecond : ((m.ptCopyin vm pid sig.savedEspAddr espAddr 4).1.ptCopyin vm pid
      sig.savedEipAddr eipAddr 4).1.Confined := Memory.ptCopyin_confined hfirst heip
  unfold sysSigreturn
  dsimp only
  split_ifs
  · exact hm
  · exact hfirst
  · exact hsecond
  · exact hsecond

end Signals

section Messages

variable [DecidableEq φ] {l : Layout φ}

theorem ipcCopyLoop_confined {mem : IpcMem φ} {destPid sourcePid : ℕ}
    {destAddr sourceAddr : BitVec 32} (hm : mem.user.Confined)
    (hdest : destAddr.toNat + length < 2 ^ 32) (hsource : sourceAddr.toNat + length < 2 ^ 32) :
    (ipcCopyLoop l mem destPid destAddr sourcePid sourceAddr length).user.Confined := by
  induction mem, destAddr, sourceAddr, length
    using ipcCopyLoop.induct l destPid sourcePid with
  | case1 mem destAddr sourceAddr =>
    rw [ipcCopyLoop, if_pos rfl]
    exact hm
  | case2 mem destAddr sourceAddr length hlength len ih =>
    have hpiece := (msgPiece_le length).1
    rw [ipcCopyLoop, if_neg hlength]
    refine ih ?_ (noWrap_advance hdest hpiece) (noWrap_advance hsource hpiece)
    apply Memory.ptCopyout_confined _ fun _ => noWrap_piece hdest hpiece
    exact Memory.ptCopyin_confined hm fun _ => noWrap_piece hsource hpiece

theorem toNat_toInt_le (n : BitVec 32) : n.toInt.toNat ≤ n.toNat := by
  rw [BitVec.toInt_eq_toNat_cond]
  split <;> omega

theorem ipcCopy_confined {mem : IpcMem φ} {destPid sourcePid : ℕ}
    {destAddr sourceAddr n : BitVec 32} (hm : mem.user.Confined) (hdest : NoWrap destAddr n)
    (hsource : NoWrap sourceAddr n) :
    (ipcCopy l destPid destAddr sourcePid sourceAddr n mem).user.Confined := by
  have hle := toNat_toInt_le n
  unfold NoWrap at hdest hsource
  exact ipcCopyLoop_confined hm (by omega) (by omega)

theorem sysSyncRecv_confined {χ : Type*} {sendCv recvCv : ℕ → χ} {s : Msg (IpcMem φ)}
    {path : Path χ Cont Ret (Msg (IpcMem φ))} {curPid sendPid addr recvLength : ℕ}
    (hpath : s.sysSyncRecv (copyEnv l sendCv recvCv) curPid sendPid addr recvLength = some path)
    (hm : s.mem.user.Confined)
    (hwrap : ∀ length, path.stop = .ret (.received length) →
      NoWrap (BitVec.ofNat 32 addr) (BitVec.ofNat 32 length) ∧
      NoWrap (BitVec.ofNat 32 (s.bufferAddr sendPid)) (BitVec.ofNat 32 length)) :
    path.shared.mem.user.Confined := by
  obtain ⟨block, -, rfl⟩ := Option.map_eq_some_iff.mp hpath
  split
  · exact hm
  · next hsender =>
    rw [if_neg hsender] at hwrap
    obtain ⟨hdest, hsource⟩ := hwrap _ rfl
    rw [Msg.consume, msgRemove_mem]
    exact ipcCopy_confined hm hdest hsource

end Messages

/-- **What the checks are worth.** An accepted range of positive length lies in the user window
exactly if its end is a 32-bit address; `pt_copyin` and `pt_copyout` access the addresses of an
accepted range and none of a rejected one.  A system call stays in the window if the ranges that
its checks let through do not wrap around. -/
theorem accesses_confined [DecidableEq φ] (vm : Vm φ) (m : Memory φ) (pid : ℕ) :
    (∀ uva kva n : BitVec 32, Accepts uva kva n → 0 < n →
      ((∀ k < n.toNat, InWindow (uva.toNat + k)) ↔ NoWrap uva n)) ∧
    (∀ (src : ℕ → BitVec 8) (uva kva n : BitVec 32),
      (m.ptCopyin vm pid uva kva n).1.touched = m.touched ++
          (if Accepts uva kva n then span uva n.toNat else []).map (fun va => (pid, va)) ∧
        (m.ptCopyout vm src pid uva kva n).touched = m.touched ++
          (if Accepts uva kva n then span uva n.toNat else []).map fun va => (pid, va)) ∧
    (m.Confined →
      (∀ sysBuf strUva strLen,
        (vmUserlo ≤ strUva ∧ strUva + strLen ≤ vmUserhi → NoWrap strUva strLen) →
        (sysPuts m vm pid sysBuf strUva strLen).1.Confined) ∧
      (∀ files kernBufAddr kernBuf fd userBuf n,
        (IoChecked files fd userBuf n → NoWrap userBuf n) →
        (sysRead m vm files pid kernBufAddr kernBuf fd userBuf n).1.Confined ∧
        (sysWrite m vm files pid kernBufAddr kernBuf fd userBuf n).1.Confined) ∧
      (∀ sig curActAddr kernActAddr kernAct signum userAct userOldact,
        (¬ (signum.toInt < 1 ∨ (nsig : ℤ) ≤ signum.toInt) →
          (userAct ≠ 0 → Accepts userAct kernActAddr (BitVec.ofNat 32 sigactionSize) →
            NoWrap userAct (BitVec.ofNat 32 sigactionSize)) ∧
          (userOldact ≠ 0 → Accepts userOldact curActAddr (BitVec.ofNat 32 sigactionSize) →
            NoWrap userOldact (BitVec.ofNat 32 sigactionSize))) →
        (sysSigaction m vm pid sig curActAddr kernActAddr kernAct signum userAct
          userOldact).1.Confined) ∧
      (∀ (sig : SigState) (espAddr eipAddr : BitVec 32),
        (Accepts sig.savedEspAddr espAddr 4 → NoWrap sig.savedEspAddr 4) →
        (Accepts sig.savedEipAddr eipAddr 4 → NoWrap sig.savedEipAddr 4) →
        (sysSigreturn m vm pid sig espAddr eipAddr).1.Confined) ∧
      ∀ (χ : Type) (l : Layout φ) (sendCv recvCv : ℕ → χ) (s : Msg (IpcMem φ))
        (path : Path χ Cont Ret (Msg (IpcMem φ))) (sendPid addr recvLength : ℕ),
        s.mem.user = m →
        s.sysSyncRecv (copyEnv l sendCv recvCv) pid sendPid addr recvLength = some path →
        (∀ length, path.stop = .ret (.received length) →
          NoWrap (BitVec.ofNat 32 addr) (BitVec.ofNat 32 length) ∧
          NoWrap (BitVec.ofNat 32 (s.bufferAddr sendPid)) (BitVec.ofNat 32 length)) →
        path.shared.mem.user.Confined) := by
  refine ⟨fun uva kva n hacc hpos => hacc.inWindow_iff hpos, ?_, fun hm => ⟨?_, ?_, ?_, ?_, ?_⟩⟩
  · intro src uva kva n
    by_cases hacc : Accepts uva kva n
    · rw [if_pos hacc, Memory.ptCopyin_of_accepts hacc, Memory.ptCopyout_of_accepts hacc]
      exact ⟨(Memory.copyinLoop_spec m vm pid uva _).2.1,
        Memory.copyoutLoop_touched m vm src pid uva _⟩
    · simp [Memory.ptCopyin, Memory.ptCopyout, hacc]
  · intro sysBuf strUva strLen hwrap
    exact sysPuts_confined hm hwrap
  · intro files kernBufAddr kernBuf fd userBuf n hwrap
    exact ⟨sysRead_confined hm hwrap, sysWrite_confined hm hwrap⟩
  · intro sig curActAddr kernActAddr kernAct signum userAct userOldact hwrap
    exact sysSigaction_confined hm hwrap
  · intro sig espAddr eipAddr hesp heip
    exact sysSigreturn_confined hm hesp heip
  · intro χ l sendCv recvCv s path sendPid addr recvLength hs hpath hwrap
    exact sysSyncRecv_confined hpath (hs ▸ hm) hwrap

def freshMemory : Memory (ℕ × ℕ) := ⟨fun _ _ => false, fun _ _ => 0, []⟩

def nullFiles : OpenFiles where
  legal _ := true
  fileRead _ _ buf := (0, buf)
  fileWrite _ n _ := n
  fileRead_le _ n _ := Int.natCast_nonneg n

/-- Two bytes at the start of the window, and a range that wraps around with a descriptor that
does not exist. -/
theorem accesses_confined_at_userlo : (∀ k < 2, InWindow (0x40000000 + k)) ∧
    (sysWrite freshMemory plainLayout.vm nullFiles 1 0x100000 (fun _ => 0) 3 0x40000000
      2).1.Confined ∧
    (sysWrite freshMemory plainLayout.vm nullFiles 1 0x100000 (fun _ => 0) 16 0xffffffff
      2).1.Confined := by
  obtain ⟨hwindow, -, hcalls⟩ := accesses_confined plainLayout.vm freshMemory 1
  have hfresh : freshMemory.Confined := fun x hx => nomatch hx
  have hwrap : NoWrap 0x40000000 2 := by
    unfold NoWrap
    decide
  have hio := (hcalls hfresh).2.1 nullFiles 0x100000 fun _ => 0
  refine ⟨?_, (hio 3 0x40000000 2 fun _ => hwrap).2, (hio 16 0xffffffff 2 ?_).2⟩
  · exact (hwindow 0x40000000 0x100000 2 (by decide) (by decide)).mpr hwrap
  · exact fun hchecked => absurd (by decide) hchecked.1

/-- Two bytes from the last address on pass every check, and `sys_write` reads the last
address and address zero. -/
theorem write_reads_outside_window : Accepts 0xffffffff 0x100000 2 ∧
      (sysWrite freshMemory plainLayout.vm nullFiles 1 0x100000 (fun _ => 0) 3 0xffffffff
        2).1.touched = [(1, 0xffffffff), (1, 0)] ∧
      ¬ InWindow 0xffffffff ∧ ¬ InWindow 0 := by
  have hacc : Accepts 0xffffffff 0x100000 2 := by decide
  have hcopy : (sysWrite freshMemory plainLayout.vm nullFiles 1 0x100000 (fun _ => 0) 3 0xffffffff
      2).1 = (freshMemory.ptCopyin plainLayout.vm 1 0xffffffff 0x100000 2).1 := by
    rw [sysWrite, if_neg (by decide), if_neg (by decide), if_neg (by decide)]
  refine ⟨hacc, ?_, by unfold InWindow; decide, by unfold InWindow; decide⟩
  rw [hcopy, Memory.ptCopyin_of_accepts hacc, (Memory.copyinLoop_spec ..).2.1]
  decide

end MCertikos.UserMem
