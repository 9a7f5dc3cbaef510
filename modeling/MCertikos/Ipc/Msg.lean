/-
# Synchronous message passing

The message queue of `ipc.c` and the two system calls that use it.
-/

import MCertikos.Thread.Wakeup

namespace MCertikos.Ipc

open Math Thread Function

/-- The message blocks, their queue, its lock and user memory. -/
structure Msg (μ : Type*) where
  prev : ℕ → ℕ
  next : ℕ → ℕ
  sendPid : ℕ → ℕ
  recvPid : ℕ → ℕ
  length : ℕ → ℕ
  bufferAddr : ℕ → ℕ
  head : ℕ
  tail : ℕ
  lock : Bool
  mem : μ

structure Env (χ μ : Type*) where
  /-- `ipc_copy`: destination process and address, source process and address,
  length. -/
  ipcCopy : ℕ → ℕ → ℕ → ℕ → ℕ → μ → μ
  /-- The address of `msgBlock[pid].send_cv`. -/
  sendCv : ℕ → χ
  /-- The address of `msgBlock[pid].recv_cv`. -/
  recvCv : ℕ → χ

/-- Where a sleeper goes on. -/
inductive Cont
  | send (curPid : ℕ)
  | recv (curPid sendPid userRecvAddr recvLength : ℕ)

inductive Call
  | send (recvPid userAddr length : ℕ)
  | recv (sendPid userRecvAddr recvLength : ℕ)

inductive Ret
  | sent
  | received (copyLength : ℕ)
  deriving DecidableEq, Repr

namespace Msg

variable {χ μ : Type*}

def ipcInit (mem : μ) : Msg μ where
  prev _ := numIds
  next _ := numIds
  sendPid i := i
  recvPid _ := numIds
  length _ := 0
  bufferAddr _ := 0
  head := numIds
  tail := numIds
  lock := false
  mem := mem

def msgEnqueue (s : Msg μ) (sendPid : ℕ) : Msg μ :=
  if s.tail = numIds then
    { s with
      prev := update s.prev sendPid numIds
      next := update s.next sendPid numIds
      tail := sendPid
      head := sendPid }
  else
    { s with
      next := update (update s.next s.tail sendPid) sendPid numIds
      prev := update s.prev sendPid s.tail
      tail := sendPid }

def msgRemove (s : Msg μ) (sendPid : ℕ) : Msg μ :=
  let prev := s.prev sendPid
  let next := s.next sendPid
  let s' : Msg μ :=
    if prev = numIds then
      if next = numIds then { s with head := numIds, tail := numIds }
      else { s with head := next, prev := update s.prev next numIds }
    else
      if next = numIds then { s with tail := prev, next := update s.next prev numIds }
      else
        { s with
          next := update s.next prev next
          prev := update s.prev next prev }
  { s' with
    prev := update s'.prev sendPid numIds
    next := update s'.next sendPid numIds }

def msgGetBlockBySendID (s : Msg μ) (sendPid : ℕ) : Option ℕ :=
  (Links.search numIds s.next (fun pid => decide (s.sendPid pid = sendPid)) numIds s.head).map
    fun found => if found.isSome then sendPid else numIds

/-- The loop of `msg_getBlockByRecvID`, for at most `fuel` turns.  Nothing in its body moves on
to the next block. -/
def recvIDLoop (s : Msg μ) (recvPid pid : ℕ) : ℕ → Option ℕ
  | 0 => none
  | fuel + 1 =>
    if pid = numIds then some numIds
    else if s.recvPid pid = recvPid then some (s.sendPid pid)
    else s.recvIDLoop recvPid pid fuel

def msgGetBlockByRecvID (s : Msg μ) (recvPid fuel : ℕ) : Option ℕ :=
  s.recvIDLoop recvPid s.head fuel

/-- `spinlock_acquire(&msg_lock)`.  With one CPU and interrupts off a taken lock is
never released while the loop spins. -/
def acquire (s : Msg μ) : Option (Msg μ) := if s.lock then none else some { s with lock := true }

def release (s : Msg μ) : Msg μ := { s with lock := false }

def sendLoop (env : Env χ μ) (s : Msg μ) (wakes : List χ) (curPid : ℕ) :
    Option (Path χ Cont Ret (Msg μ)) :=
  (s.msgGetBlockBySendID curPid).map fun block =>
    if block ≠ numIds then ⟨s.release, wakes, .block (env.recvCv curPid) (.send curPid)⟩
    else ⟨s, wakes, .ret .sent⟩

def sysSyncSend (env : Env χ μ) (s : Msg μ) (curPid recvPid userAddr length : ℕ) :
    Option (Path χ Cont Ret (Msg μ)) :=
  let s : Msg μ :=
    { s with
      recvPid := update s.recvPid curPid recvPid
      bufferAddr := update s.bufferAddr curPid userAddr
      length := update s.length curPid length }
  (s.msgEnqueue curPid).sendLoop env [env.sendCv curPid] curPid

def consume (env : Env χ μ) (s : Msg μ) (curPid sendPid userRecvAddr recvLength : ℕ) :
    Path χ Cont Ret (Msg μ) :=
  let sendLength := s.length sendPid
  let copyLength := if sendLength < recvLength then sendLength else recvLength
  let mem := env.ipcCopy curPid userRecvAddr sendPid (s.bufferAddr sendPid) copyLength s.mem
  ⟨{ s with mem := mem }.msgRemove sendPid, [env.recvCv sendPid], .ret (.received copyLength)⟩

def sysSyncRecv (env : Env χ μ) (s : Msg μ) (curPid sendPid userRecvAddr recvLength : ℕ) :
    Option (Path χ Cont Ret (Msg μ)) :=
  (s.msgGetBlockBySendID sendPid).map fun block =>
    if block = numIds ∨ s.recvPid sendPid ≠ curPid then
      ⟨s.release, [], .block (env.sendCv sendPid)
        (.recv curPid sendPid userRecvAddr recvLength)⟩
    else s.consume env curPid sendPid userRecvAddr recvLength

end Msg

def ipcMonitor {χ μ : Type*} (env : Env χ μ) : Monitor χ Cont Call Empty Ret (Msg μ) where
  call pid args s :=
    match args with
    | .send recvPid userAddr length => s.sysSyncSend env pid recvPid userAddr length
    | .recv sendPid userRecvAddr recvLength =>
      s.sysSyncRecv env pid sendPid userRecvAddr recvLength
  resume _ cont s :=
    s.acquire.bind fun s =>
      match cont with
      | .send curPid => s.sendLoop env [] curPid
      | .recv curPid sendPid userRecvAddr recvLength =>
        s.sysSyncRecv env curPid sendPid userRecvAddr recvLength
  intr irq := nomatch irq

end MCertikos.Ipc
