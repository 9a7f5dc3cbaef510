/-
# System calls that copy from and to user memory

The handlers of `sys_puts`, `sys_read`, `sys_write`, `sys_sigaction` and `sys_sigreturn` with the
checks each makes on its registers before it calls `pt_copyin` or `pt_copyout`.
-/

import MCertikos.Math.Bytes
import MCertikos.UserMem.Pmap

namespace MCertikos.UserMem

open Math Pmm

inductive Errno
  | succ
  | mem
  | invalAddr
  | badf
  | invalSignum
  deriving DecidableEq, Repr

def nofile : ℕ := 16

def kernBufSize : ℕ := 10000

def nsig : ℕ := 32

def sigactionSize : ℕ := 20

variable {φ : Type*}

def fill {n : ℕ} (buf : Bytes n) (copied : List (BitVec 8)) : Bytes n :=
  buf.memmove 0 copied.length fun j => copied.getD j 0

theorem byte_fill {n j : ℕ} {buf : Bytes n} {copied : List (BitVec 8)} (hj : j < copied.length)
    (hle : copied.length ≤ n) : (fill buf copied).byte j = copied.getD j 0 := by
  have hlt : j < n := hj.trans_le hle
  simp [fill, Bytes.byte, Bytes.memmove, hlt, hj]

/-! ## `sys_puts` -/

def putsPiece (remain : ℕ) : ℕ := if remain < pagesize - 1 then remain else pagesize - 1

/-- The loop of `sys_puts`: the memory, the error number, and what `KERN_INFO` printed, each
piece up to its first null byte. -/
def putsLoop (m : Memory φ) (vm : Vm φ) (pid : ℕ) (sysBuf curPos : BitVec 32) (remain : ℕ)
    (printed : List (BitVec 8)) : Memory φ × Errno × List (BitVec 8) :=
  if remain = 0 then (m, .succ, printed)
  else
    let nbytes := putsPiece remain
    let copy := m.ptCopyin vm pid curPos sysBuf (BitVec.ofNat 32 nbytes)
    if copy.2.length ≠ nbytes then (copy.1, .mem, printed)
    else
      putsLoop copy.1 vm pid sysBuf (curPos + BitVec.ofNat 32 nbytes) (remain - nbytes)
        (printed ++ copy.2.takeWhile (· != 0))
termination_by remain
decreasing_by
  unfold putsPiece pagesize
  split <;> omega

def sysPuts (m : Memory φ) (vm : Vm φ) (pid : ℕ) (sysBuf strUva strLen : BitVec 32) :
    Memory φ × Errno × List (BitVec 8) :=
  if ¬(vmUserlo ≤ strUva ∧ strUva + strLen ≤ vmUserhi) then (m, .invalAddr, [])
  else putsLoop m vm pid sysBuf strUva strLen.toNat []

/-! ## `sys_read` and `sys_write` -/

structure OpenFiles where
  /-- The descriptor has a file with an inode. -/
  legal : ℕ → Bool
  /-- `file_read`: the size it returns and `kern_buf` after it. -/
  fileRead : ℕ → ℕ → Bytes kernBufSize → ℤ × Bytes kernBufSize
  fileWrite : ℕ → ℕ → Bytes kernBufSize → ℤ
  fileRead_le : ∀ fd n buf, (fileRead fd n buf).1 ≤ n

def illegalUserBuf (userBuf n : BitVec 32) : Bool :=
  decide (userBuf < vmUserlo ∨ vmUserhi < userBuf + n ∨ kernBufSize < n.toNat)

def sysRead [DecidableEq φ] (m : Memory φ) (vm : Vm φ) (files : OpenFiles) (pid : ℕ)
    (kernBufAddr : BitVec 32) (kernBuf : Bytes kernBufSize) (fd userBuf n : BitVec 32) :
    Memory φ × Errno × ℤ × Bytes kernBufSize :=
  if fd.toInt < 0 ∨ (nofile : ℤ) ≤ fd.toInt then (m, .badf, -1, kernBuf)
  else if illegalUserBuf userBuf n then (m, .invalAddr, -1, kernBuf)
  else if ¬files.legal fd.toNat then (m, .badf, -1, kernBuf)
  else
    let read := files.fileRead fd.toNat n.toNat kernBuf
    let m :=
      if 0 < read.1 then
        m.ptCopyout vm read.2.byte pid userBuf kernBufAddr (BitVec.ofInt 32 read.1)
      else m
    (m, .succ, read.1, read.2)

def sysWrite (m : Memory φ) (vm : Vm φ) (files : OpenFiles) (pid : ℕ) (kernBufAddr : BitVec 32)
    (kernBuf : Bytes kernBufSize) (fd userBuf n : BitVec 32) :
    Memory φ × Errno × ℤ × Bytes kernBufSize :=
  if fd.toInt < 0 ∨ (nofile : ℤ) ≤ fd.toInt then (m, .badf, -1, kernBuf)
  else if illegalUserBuf userBuf n then (m, .invalAddr, -1, kernBuf)
  else if ¬files.legal fd.toNat then (m, .badf, -1, kernBuf)
  else
    let copy := m.ptCopyin vm pid userBuf kernBufAddr n
    let kernBuf := fill kernBuf copy.2
    (copy.1, .succ, files.fileWrite fd.toNat n.toNat kernBuf, kernBuf)

/-! ## `sys_sigaction` and `sys_sigreturn` -/

structure SigState where
  sigactions : ℕ → Bytes sigactionSize
  savedEspAddr : BitVec 32
  savedEipAddr : BitVec 32
  inSignalHandler : Bool

/-- `sys_sigaction`.  `curActAddr` is the address of the old action, `kernActAddr` that of
`kern_act`, whose uninitialised contents are `kernAct`. -/
def sysSigaction [DecidableEq φ] (m : Memory φ) (vm : Vm φ) (pid : ℕ) (sig : SigState)
    (curActAddr kernActAddr : BitVec 32) (kernAct : Bytes sigactionSize)
    (signum userAct userOldact : BitVec 32) : Memory φ × Errno × SigState :=
  if signum.toInt < 1 ∨ (nsig : ℤ) ≤ signum.toInt then (m, .invalSignum, sig)
  else
    let size := BitVec.ofNat 32 sigactionSize
    let m :=
      if userOldact ≠ 0 then
        m.ptCopyout vm (sig.sigactions signum.toNat).byte pid userOldact curActAddr size
      else m
    if userAct ≠ 0 then
      let copy := m.ptCopyin vm pid userAct kernActAddr size
      let act := fill kernAct copy.2
      (copy.1, .succ, { sig with sigactions := Function.update sig.sigactions signum.toNat act })
    else (m, .succ, sig)

structure Restored where
  esp : BitVec 32
  eip : BitVec 32

def sysSigreturn (m : Memory φ) (vm : Vm φ) (pid : ℕ) (sig : SigState)
    (espAddr eipAddr : BitVec 32) : Memory φ × Errno × SigState × Option Restored :=
  if sig.savedEspAddr = 0 ∨ sig.savedEipAddr = 0 then (m, .invalAddr, sig, none)
  else
    let savedEsp := m.ptCopyin vm pid sig.savedEspAddr espAddr 4
    if savedEsp.2.length ≠ 4 then (savedEsp.1, .mem, sig, none)
    else
      let savedEip := savedEsp.1.ptCopyin vm pid sig.savedEipAddr eipAddr 4
      if savedEip.2.length ≠ 4 then (savedEip.1, .mem, sig, none)
      else
        let word (copied : List (BitVec 8)) : BitVec 32 :=
          Bytes.word (n := 4) (fill (fun _ => 0) copied) 0
        (savedEip.1, .succ,
          { sig with savedEspAddr := 0, savedEipAddr := 0, inSignalHandler := false },
          some ⟨word savedEsp.2, word savedEip.2⟩)

end MCertikos.UserMem
