/-
# The copy of a message

`ipc_copy` moves a message through the shared buffer `msg_buf`, one hundred bytes at a time:
`pt_copyin` from the sender, `pt_copyout` to the receiver.
-/

import MCertikos.Ipc.Rendezvous
import MCertikos.UserMem.Syscalls

namespace MCertikos.Ipc

open Math Thread UserMem

def msgBufSize : ℕ := 100

structure IpcMem (φ : Type*) where
  user : Memory φ
  msgBuf : Bytes msgBufSize

structure Layout (φ : Type*) where
  vm : Vm φ
  msgBufAddr : BitVec 32
  fits : msgBufAddr.toNat + msgBufSize ≤ vmUserhi.toNat

section Copy

variable {φ : Type*} [DecidableEq φ]

def msgPiece (length : ℕ) : ℕ := if length < msgBufSize then length else msgBufSize

def copyRound (l : Layout φ) (mem : IpcMem φ) (destPid : ℕ) (destAddr : BitVec 32)
    (sourcePid : ℕ) (sourceAddr len : BitVec 32) : IpcMem φ :=
  let copyin := mem.user.ptCopyin l.vm sourcePid sourceAddr l.msgBufAddr len
  let msgBuf := fill mem.msgBuf copyin.2
  ⟨copyin.1.ptCopyout l.vm msgBuf.byte destPid destAddr l.msgBufAddr len, msgBuf⟩

def ipcCopyLoop (l : Layout φ) (mem : IpcMem φ) (destPid : ℕ) (destAddr : BitVec 32)
    (sourcePid : ℕ) (sourceAddr : BitVec 32) (length : ℕ) : IpcMem φ :=
  if length = 0 then mem
  else
    let len := BitVec.ofNat 32 (msgPiece length)
    ipcCopyLoop l (copyRound l mem destPid destAddr sourcePid sourceAddr len) destPid
      (destAddr + len) sourcePid (sourceAddr + len) (length - msgPiece length)
termination_by length
decreasing_by
  unfold msgPiece msgBufSize
  split <;> omega

def ipcCopy (l : Layout φ) (destPid : ℕ) (destAddr : BitVec 32) (sourcePid : ℕ)
    (sourceAddr length : BitVec 32) (mem : IpcMem φ) : IpcMem φ :=
  ipcCopyLoop l mem destPid destAddr sourcePid sourceAddr length.toInt.toNat

/-- The message-passing environment with the copy of the source. -/
def copyEnv {χ : Type*} (l : Layout φ) (sendCv recvCv : ℕ → χ) : Env χ (IpcMem φ) where
  ipcCopy destPid destAddr sourcePid sourceAddr length :=
    ipcCopy l destPid (BitVec.ofNat 32 destAddr) sourcePid (BitVec.ofNat 32 sourceAddr)
      (BitVec.ofNat 32 length)
  sendCv := sendCv
  recvCv := recvCv

/-! ## What a round does -/

variable {l : Layout φ} {P : ℕ → Prop}

theorem toNat_ofNat_of_piece {n : ℕ} (hn : n ≤ msgBufSize) : (BitVec.ofNat 32 n).toNat = n := by
  rw [BitVec.toNat_ofNat, Nat.mod_eq_of_lt]
  exact hn.trans_lt (by decide)

theorem msgPiece_le (length : ℕ) : msgPiece length ≤ length ∧ msgPiece length ≤ msgBufSize := by
  unfold msgPiece
  split <;> omega

/-- The user range is one that `pt_copyin` and `pt_copyout` accept for `n` bytes of `msg_buf`. -/
def Layout.Takes (l : Layout φ) (addr : BitVec 32) (n : ℕ) : Prop :=
  Accepts addr l.msgBufAddr (BitVec.ofNat 32 n)

instance (l : Layout φ) (addr : BitVec 32) (n : ℕ) : Decidable (l.Takes addr n) :=
  inferInstanceAs (Decidable (Accepts _ _ _))

section Round

variable {mem : IpcMem φ} {destPid sourcePid pid n : ℕ} {destAddr sourceAddr va : BitVec 32}

omit [DecidableEq φ] in
theorem copyin_phys :
    (mem.user.ptCopyin l.vm sourcePid sourceAddr l.msgBufAddr (BitVec.ofNat 32 n)).1.phys =
      mem.user.phys := by
  unfold Memory.ptCopyin
  split
  · exact (Memory.copyinLoop_spec mem.user l.vm sourcePid sourceAddr _).1
  · rfl

theorem copyRound_msgBuf (hn : n ≤ msgBufSize) (j : ℕ) :
    (copyRound l mem destPid destAddr sourcePid sourceAddr (BitVec.ofNat 32 n)).msgBuf.byte j =
      if l.Takes sourceAddr n ∧ j < n then
        mem.user.byteAt l.vm sourcePid (sourceAddr + BitVec.ofNat 32 j)
      else mem.msgBuf.byte j := by
  unfold copyRound Memory.ptCopyin Layout.Takes
  dsimp only
  by_cases hacc : Accepts sourceAddr l.msgBufAddr (BitVec.ofNat 32 n)
  · rw [if_pos hacc, toNat_ofNat_of_piece hn,
      (Memory.copyinLoop_spec mem.user l.vm sourcePid sourceAddr n).2.2]
    by_cases hj : j < n
    · rw [if_pos ⟨hacc, hj⟩, byte_fill (by simpa using hj) (by simpa using hn)]
      simp [span, List.getD_eq_getElem?_getD, List.getElem?_range hj]
    · rw [if_neg fun h => hj h.2]
      simp [fill, Bytes.byte, Bytes.memmove, hj]
  · rw [if_neg hacc, if_neg fun h => hacc h.1]
    simp [fill, Bytes.byte, Bytes.memmove]

/-- A round writes what is in `msg_buf` then, if the destination is accepted. -/
theorem copyRound_byteAt (hvm : l.vm.Owns P) (hn : n ≤ msgBufSize)
    (hinside : l.Takes destAddr n → ∀ j < n, P (destAddr + BitVec.ofNat 32 j).toNat)
    (hva : P va.toNat) :
    (copyRound l mem destPid destAddr sourcePid sourceAddr (BitVec.ofNat 32 n)).user.byteAt
        l.vm pid va =
      if l.Takes destAddr n ∧ pid = destPid ∧ (va - destAddr).toNat < n then
        (copyRound l mem destPid destAddr sourcePid sourceAddr (BitVec.ofNat 32 n)).msgBuf.byte
          (va - destAddr).toNat
      else mem.user.byteAt l.vm pid va := by
  have hold : (mem.user.ptCopyin l.vm sourcePid sourceAddr l.msgBufAddr
      (BitVec.ofNat 32 n)).1.byteAt l.vm pid va = mem.user.byteAt l.vm pid va :=
    congrFun (congrFun copyin_phys _) _
  unfold copyRound Memory.ptCopyout
  dsimp only
  by_cases hacc : Accepts destAddr l.msgBufAddr (BitVec.ofNat 32 n)
  · rw [if_pos hacc, toNat_ofNat_of_piece hn]
    refine (Memory.copyoutLoop_byteAt hvm (by unfold msgBufSize at hn; omega)
      (fun x hx => ?_) hva).trans ?_
    · obtain ⟨j, hj, rfl⟩ := List.mem_map.mp hx
      exact hinside hacc j (List.mem_range.mp hj)
    · exact if_congr ⟨fun h => ⟨hacc, h⟩, fun h => h.2⟩ rfl hold
  · rw [if_neg hacc, if_neg fun h => hacc h.1]
    exact hold

end Round

/-! ## What a copy between two ranges that are accepted does -/

/-- Every piece of the range is accepted, and its addresses lie in `P`. -/
structure Moved (l : Layout φ) (P : ℕ → Prop) (addr : BitVec 32) (n : ℕ) : Prop where
  takes : ∀ k, msgBufSize * k < n →
    l.Takes (addr + BitVec.ofNat 32 (msgBufSize * k)) (msgPiece (n - msgBufSize * k))
  inside : ∀ j < n, P (addr + BitVec.ofNat 32 j).toNat

namespace Moved

variable {addr : BitVec 32} {n : ℕ}

omit [DecidableEq φ] in
theorem first (h : Moved l P addr n) (hn : n ≠ 0) : l.Takes addr (msgPiece n) := by
  have htakes := h.takes 0 (by omega)
  rwa [Nat.mul_zero, Nat.sub_zero, BitVec.add_zero] at htakes

omit [DecidableEq φ] in
theorem rest (h : Moved l P addr n) :
    Moved l P (addr + BitVec.ofNat 32 (msgPiece n)) (n - msgPiece n) where
  takes k hk := by
    have hpiece : msgPiece n = msgBufSize := by
      unfold msgPiece at hk ⊢
      split
      · next hlt =>
        rw [if_pos hlt] at hk
        omega
      · rfl
    have htakes := h.takes (k + 1) (by rw [hpiece] at hk; rw [Nat.mul_succ]; omega)
    rwa [hpiece, BitVec.add_assoc, ← BitVec.ofNat_add, Nat.sub_sub, Nat.add_comm msgBufSize,
      ← Nat.mul_succ]
  inside j hj := by
    rw [BitVec.add_assoc, ← BitVec.ofNat_add]
    exact h.inside _ (by omega)

end Moved

theorem advance_source (source dest va step : BitVec 32) :
    source + step + (va - (dest + step)) = source + (va - dest) := by
  bv_omega

variable {mem : IpcMem φ} {destPid sourcePid pid : ℕ} {destAddr sourceAddr va : BitVec 32}
  {length : ℕ}

/-- **A copy between two accepted ranges** puts the source's bytes at the destination and changes
nothing else, whatever `msg_buf` held. -/
theorem ipcCopyLoop_byteAt (hvm : l.vm.Owns P) (hne : sourcePid ≠ destPid)
    (hlt : length < 2 ^ 32) (hdest : Moved l P destAddr length)
    (hsource : Moved l P sourceAddr length) (hva : P va.toNat) :
    (ipcCopyLoop l mem destPid destAddr sourcePid sourceAddr length).user.byteAt l.vm pid va =
      if pid = destPid ∧ (va - destAddr).toNat < length then
        mem.user.byteAt l.vm sourcePid (sourceAddr + (va - destAddr))
      else mem.user.byteAt l.vm pid va := by
  induction mem, destAddr, sourceAddr, length
    using ipcCopyLoop.induct l destPid sourcePid with
  | case1 mem destAddr sourceAddr =>
    rw [ipcCopyLoop, if_pos rfl, if_neg (by omega)]
  | case2 mem destAddr sourceAddr length hlength len ih =>
    obtain ⟨hpiece, hbuf⟩ := msgPiece_le length
    have hround : ∀ {p : ℕ} {a : BitVec 32}, P a.toNat →
        (copyRound l mem destPid destAddr sourcePid sourceAddr len).user.byteAt l.vm p a =
        if p = destPid ∧ (a - destAddr).toNat < msgPiece length then
          mem.user.byteAt l.vm sourcePid (sourceAddr + (a - destAddr))
        else mem.user.byteAt l.vm p a := by
      intro p a ha
      refine (copyRound_byteAt hvm hbuf (fun _ j hj => hdest.inside j (by omega)) ha).trans ?_
      refine if_ctx_congr ⟨fun h => h.2, fun h => ⟨hdest.first hlength, h⟩⟩ (fun h => ?_)
        fun _ => rfl
      rw [copyRound_msgBuf hbuf, if_pos ⟨hsource.first hlength, h.2⟩, BitVec.ofNat_toNat,
        BitVec.setWidth_eq]
    rw [ipcCopyLoop, if_neg hlength]
    refine (ih (by omega) hdest.rest hsource.rest).trans ?_
    rw [show len = BitVec.ofNat 32 (msgPiece length) from rfl] at hround ⊢
    rw [hround hva, toNat_sub_advance va destAddr (by omega)]
    -- the byte is written in this round, in a later one, or not at all
    by_cases hnow : (va - destAddr).toNat < msgPiece length
    · rw [if_pos hnow, if_neg (by omega)]
      exact if_congr (and_congr_right fun _ => ⟨fun _ => by omega, fun _ => hnow⟩) rfl rfl
    · rw [if_neg hnow, if_neg fun hin : _ ∧ _ => hnow hin.2]
      by_cases hin : pid = destPid ∧ (va - destAddr).toNat < length
      · have hsent := hsource.inside _ hin.2
        rw [BitVec.ofNat_toNat, BitVec.setWidth_eq] at hsent
        rw [if_pos ⟨hin.1, by omega⟩, if_pos hin, advance_source, hround hsent,
          if_neg fun h : _ ∧ _ => hne h.1]
      · rw [if_neg fun h : _ ∧ _ => hin ⟨h.1, by omega⟩, if_neg hin]

theorem toInt_toNat_length (hlength : length < 2 ^ 31) :
    (BitVec.ofNat 32 length).toInt.toNat = length := by
  rw [BitVec.toInt_ofNat', Int.bmod_eq_of_le (by omega) (by omega), Int.toNat_natCast]

/-! ## A copy of which a piece is rejected -/

/-- Everything is zero but one byte of the sender. -/
structure Blank (l : Layout φ) (sourcePid : ℕ) (one : BitVec 32) (mem : IpcMem φ) : Prop where
  buf : ∀ j, mem.msgBuf.byte j = 0
  user : ∀ p va, ¬ (p = sourcePid ∧ va = one) → mem.user.byteAt l.vm p va = 0

/-- A round that does not read the byte moves zeros. -/
theorem Blank.round {one : BitVec 32} {n : ℕ} (h : Blank l sourcePid one mem)
    (hvm : l.vm.Owns fun _ => True) (hn : n ≤ msgBufSize)
    (hunread : ¬ l.Takes sourceAddr n ∨ n ≤ (one - sourceAddr).toNat) :
    Blank l sourcePid one
      (copyRound l mem destPid destAddr sourcePid sourceAddr (BitVec.ofNat 32 n)) := by
  have hbuf : ∀ j, (copyRound l mem destPid destAddr sourcePid sourceAddr
      (BitVec.ofNat 32 n)).msgBuf.byte j = 0 := by
    intro j
    rw [copyRound_msgBuf hn]
    split
    · next hread =>
      refine h.user _ _ fun hone => ?_
      have hword := toNat_ofNat_of_piece (hread.2.le.trans hn)
      rw [← hone.2, BitVec.add_comm, BitVec.add_sub_cancel, hword] at hunread
      exact hunread.elim (fun hnot => hnot hread.1) (by omega)
    · exact h.buf j
  refine ⟨hbuf, fun p va hother => ?_⟩
  rw [copyRound_byteAt hvm hn (fun _ _ _ => trivial) trivial]
  split
  · exact hbuf _
  · exact h.user p va hother

/-- Bytes outside of the destination are left alone. -/
theorem ipcCopyLoop_byteAt_of_le (hvm : l.vm.Owns fun _ => True) (hlt : length < 2 ^ 32)
    (hout : length ≤ (va - destAddr).toNat) :
    (ipcCopyLoop l mem destPid destAddr sourcePid sourceAddr length).user.byteAt l.vm pid va =
      mem.user.byteAt l.vm pid va := by
  induction mem, destAddr, sourceAddr, length
    using ipcCopyLoop.induct l destPid sourcePid with
  | case1 mem destAddr sourceAddr => rw [ipcCopyLoop, if_pos rfl]
  | case2 mem destAddr sourceAddr length hlength len ih =>
    obtain ⟨hpiece, hbuf⟩ := msgPiece_le length
    rw [ipcCopyLoop, if_neg hlength]
    refine (ih (by omega) ?_).trans ?_
    · rw [toNat_sub_advance va destAddr (by omega), if_neg (by omega)]
      omega
    · exact (copyRound_byteAt hvm hbuf (fun _ _ _ => trivial) trivial).trans
        (if_neg fun h => by omega)

/-- If a piece is not accepted on both sides, its first byte does not arrive. -/
theorem Blank.ipcCopyLoop (hvm : l.vm.Owns fun _ => True) (hne : sourcePid ≠ destPid)
    (hlt : length < 2 ^ 31) {k : ℕ} (hk : msgBufSize * k < length)
    (hrejected : ¬ (l.Takes (sourceAddr + BitVec.ofNat 32 (msgBufSize * k))
        (msgPiece (length - msgBufSize * k)) ∧
      l.Takes (destAddr + BitVec.ofNat 32 (msgBufSize * k)) (msgPiece (length - msgBufSize * k))))
    (h : Blank l sourcePid (sourceAddr + BitVec.ofNat 32 (msgBufSize * k)) mem) :
    (ipcCopyLoop l mem destPid destAddr sourcePid sourceAddr length).user.byteAt l.vm destPid
      (destAddr + BitVec.ofNat 32 (msgBufSize * k)) = 0 := by
  induction k generalizing mem sourceAddr destAddr length with
  | zero =>
    obtain ⟨hpiece, hbuf⟩ := msgPiece_le length
    have hpos : 0 < msgPiece length := by
      unfold msgPiece msgBufSize
      split <;> omega
    rw [Nat.mul_zero, Nat.sub_zero, BitVec.add_zero, BitVec.add_zero] at hrejected
    rw [Nat.mul_zero, BitVec.add_zero] at h ⊢
    rw [Ipc.ipcCopyLoop, if_neg (by omega), ipcCopyLoop_byteAt_of_le hvm (by omega)
      (by rw [toNat_sub_advance _ _ (by omega), BitVec.sub_self, if_pos (by simpa using hpos)]
          simp only [BitVec.toNat_ofNat]
          omega)]
    by_cases hread : l.Takes sourceAddr (msgPiece length)
    · rw [copyRound_byteAt hvm hbuf (fun _ _ _ => trivial) trivial,
        if_neg fun hwrite => hrejected ⟨hread, hwrite.1⟩]
      exact h.user _ _ fun hsender => hne hsender.1.symm
    · exact (h.round hvm hbuf (.inl hread)).user _ _ fun hsender => hne hsender.1.symm
  | succ k ih =>
    have hpiece : msgPiece length = msgBufSize := if_neg (by rw [Nat.mul_succ] at hk; omega)
    have hsplit : BitVec.ofNat 32 (msgBufSize * (k + 1)) =
        BitVec.ofNat 32 msgBufSize + BitVec.ofNat 32 (msgBufSize * k) := by
      rw [← BitVec.ofNat_add, Nat.mul_succ, Nat.add_comm]
    have hleft : length - msgBufSize * (k + 1) = length - msgBufSize - msgBufSize * k := by
      rw [Nat.mul_succ]
      omega
    rw [hsplit, ← BitVec.add_assoc, ← BitVec.add_assoc, hleft] at hrejected
    rw [hsplit, ← BitVec.add_assoc] at h ⊢
    rw [Ipc.ipcCopyLoop, if_neg (by omega), hpiece]
    refine ih (by omega) (by rw [Nat.mul_succ] at hk; omega) hrejected ?_
    refine h.round hvm le_rfl (.inr ?_)
    rw [BitVec.add_assoc, ← hsplit, BitVec.add_comm, BitVec.add_sub_cancel, BitVec.toNat_ofNat,
      Nat.mod_eq_of_lt (by omega), Nat.mul_succ]
    omega

end Copy

/-! ## Receives -/

section Receives

variable {χ μ : Type*} {env : Env χ μ}

theorem msgRemove_mem (s : Msg μ) (pid : ℕ) : (s.msgRemove pid).mem = s.mem := by
  unfold Msg.msgRemove
  dsimp only
  split <;> split <;> rfl

theorem mem_of_sysSyncRecv {s : Msg μ} {path : Path χ Cont Ret (Msg μ)}
    {curPid sendPid addr recvLength n : ℕ}
    (hpath : s.sysSyncRecv env curPid sendPid addr recvLength = some path)
    (hstop : path.stop = .ret (.received n)) : n = min (s.length sendPid) recvLength ∧
      path.shared.mem = env.ipcCopy curPid addr sendPid (s.bufferAddr sendPid) n s.mem := by
  obtain ⟨block, -, rfl⟩ := Option.map_eq_some_iff.mp hpath
  split at hstop
  · cases hstop
  · next hcond =>
    rw [if_neg hcond]
    obtain rfl := Ret.received.inj (Stop.ret.inj hstop)
    refine ⟨?_, msgRemove_mem _ _⟩
    split <;> omega

theorem mem_of_received {s t : Msg μ} {op : DataOp Cont Call Empty} {wakes : List χ}
    {curPid sendPid addr recvLength n : ℕ}
    (hloop : loopOf op = some (.recv curPid sendPid addr recvLength))
    (hexec : (ipcMonitor env).dataMachine.exec s op =
      some (t, ⟨wakes, some (.ret (.received n))⟩)) :
    n = min (s.length sendPid) recvLength ∧
      t.mem = env.ipcCopy curPid addr sendPid (s.bufferAddr sendPid) n s.mem := by
  cases op with
  | call pid args =>
    cases args with
    | send => cases hloop
    | recv =>
      obtain ⟨path, hpath, heq⟩ := Option.map_eq_some_iff.mp hexec
      simp only [Prod.mk.injEq, Effect.mk.injEq, Option.some.injEq] at heq
      obtain ⟨rfl, -, hstop⟩ := heq
      cases hloop
      exact mem_of_sysSyncRecv hpath hstop
  | resume pid cont =>
    obtain ⟨path, hpath, heq⟩ := Option.map_eq_some_iff.mp hexec
    simp only [Prod.mk.injEq, Effect.mk.injEq, Option.some.injEq] at heq
    obtain ⟨rfl, -, hstop⟩ := heq
    obtain ⟨taken, hlock, hpath⟩ := Option.bind_eq_some_iff.mp hpath
    obtain ⟨-, hlock⟩ := Option.ite_none_left_eq_some.mp hlock
    obtain rfl := Option.some.inj hlock
    cases hloop
    exact mem_of_sysSyncRecv (s := { s with lock := true }) hpath hstop
  | intr irq => cases irq

variable [DecidableEq χ]

theorem acts_of_step {k next : Kernel χ Cont (Msg μ)} {op : Op Call Empty} {out : Output Ret}
    {dop : DataOp Cont Call Empty} (hstep : (ipcMonitor env).Step k op next out)
    (hdop : k.dataOp op = some dop) : Acts k.cont k.sched.curid dop := by
  cases hstep with
  | call user =>
    obtain rfl := Option.some.inj hdop
    exact .call user
  | resume hcont =>
    rw [Kernel.dataOp, hcont] at hdop
    obtain rfl := Option.some.inj hdop
    exact .resume hcont
  | @intr irq => cases irq
  | spawn | handoff | yield | kill | terminate => cases hdop

/-- An operation in `k` completes a `sys_sync_recv` of `pid` from `sendPid`, with the registers
`addr` and `recvLength`, and the call returns `n`. -/
structure Receives (env : Env χ μ) (k next : Kernel χ Cont (Msg μ))
    (pid sendPid addr recvLength n : ℕ) : Prop where
  completes : ∃ op, (k.dataOp op).bind loopOf = some (.recv pid sendPid addr recvLength) ∧
    (ipcMonitor env).exec k op = some (next, .ret pid (.received n))

namespace Receives

variable {k next : Kernel χ Cont (Msg μ)} {pid sendPid addr recvLength n : ℕ}

theorem dataExec (h : Receives env k next pid sendPid addr recvLength n) :
    pid = k.sched.curid ∧ ∃ dop wakes, Acts k.cont pid dop ∧
      loopOf dop = some (.recv pid sendPid addr recvLength) ∧
      (ipcMonitor env).dataMachine.exec k.shared dop =
        some (next.shared, ⟨wakes, some (.ret (.received n))⟩) := by
  obtain ⟨op, hloop, hexec⟩ := h.completes
  have hstep := Monitor.step_of_exec hexec
  obtain ⟨rfl, dop, wakes, hdop, hdata⟩ := Monitor.dataExec_of_ret hstep
  rw [hdop, Option.bind_some] at hloop
  exact ⟨rfl, dop, wakes, acts_of_step hstep hdop, hloop, hdata⟩

theorem length_eq (h : Receives env k next pid sendPid addr recvLength n) :
    n = min (k.shared.length sendPid) recvLength := by
  obtain ⟨-, dop, wakes, -, hloop, hdata⟩ := h.dataExec
  exact (mem_of_received hloop hdata).1

theorem mem_eq (h : Receives env k next pid sendPid addr recvLength n) : next.shared.mem =
      env.ipcCopy pid addr sendPid (k.shared.bufferAddr sendPid) n k.shared.mem := by
  obtain ⟨-, dop, wakes, -, hloop, hdata⟩ := h.dataExec
  exact (mem_of_received hloop hdata).2

theorem sender_ne (h : Receives env k next pid sendPid addr recvLength n)
    (hsettled : IpcSettled env k) : sendPid ≠ pid := by
  obtain ⟨hpid, dop, wakes, hacts, hloop, hdata⟩ := h.dataExec
  obtain ⟨q, hq⟩ := hsettled.inv.queue
  obtain ⟨_, hwf⟩ := hsettled.sched
  obtain ⟨q', hstep⟩ := msgStep_of_exec hq (fun p args hop => by
    obtain ⟨rfl, hmem⟩ := hacts.fresh hsettled.inv hq hop
    exact ⟨hpid ▸ hwf.curid_lt, hmem⟩) hdata
  rintro rfl
  have hgone := hacts.not_mem_of_recv hsettled.inv hq hloop
  cases hstep with
  | received hloop' hmem =>
    obtain ⟨-, rfl, -, -⟩ := Cont.recv.inj (Option.some.inj (hloop.symm.trans hloop'))
    exact hgone hmem

end Receives

end Receives

section Transfer

variable {φ χ : Type*} [DecidableEq φ] [DecidableEq χ] {l : Layout φ} {sendCv recvCv : ℕ → χ}

def SameMemory (l : Layout φ) (pid : ℕ) (mem mem' : IpcMem φ) : Prop :=
  ∀ va : BitVec 32, InWindow va.toNat → mem.user.byteAt l.vm pid va = mem'.user.byteAt l.vm pid va

/-- The copy from `mem` leaves the sender's bytes at the receiver, and what the receiver finds
depends on these bytes and its own memory alone. -/
structure Transfers (l : Layout φ) (pid : ℕ) (addr : BitVec 32) (sendPid : ℕ)
    (sendAddr : BitVec 32) (n : ℕ) (mem : IpcMem φ) : Prop where
  bytes : ∀ j < n, (ipcCopy l pid addr sendPid sendAddr (BitVec.ofNat 32 n) mem).user.byteAt l.vm
    pid (addr + BitVec.ofNat 32 j) = mem.user.byteAt l.vm sendPid (sendAddr + BitVec.ofNat 32 j)
  alone : ∀ mem', SameMemory l pid mem mem' →
    (∀ j < n, mem.user.byteAt l.vm sendPid (sendAddr + BitVec.ofNat 32 j) =
      mem'.user.byteAt l.vm sendPid (sendAddr + BitVec.ofNat 32 j)) →
    SameMemory l pid (ipcCopy l pid addr sendPid sendAddr (BitVec.ofNat 32 n) mem)
      (ipcCopy l pid addr sendPid sendAddr (BitVec.ofNat 32 n) mem')

/-- The range is user memory. -/
structure UserRange (addr : BitVec 32) (n : ℕ) : Prop where
  lo : vmUserlo.toNat ≤ addr.toNat
  hi : addr.toNat + n ≤ vmUserhi.toNat

section Ranges

variable {addr sendAddr : BitVec 32} {n : ℕ}

theorem toNat_add_ofNat {j : ℕ} (hj : addr.toNat + j < 2 ^ 32) :
    (addr + BitVec.ofNat 32 j).toNat = addr.toNat + j := by
  rw [BitVec.toNat_add, BitVec.toNat_ofNat, Nat.mod_eq_of_lt (by omega : j < 2 ^ 32),
    Nat.mod_eq_of_lt hj]

omit [DecidableEq φ] in
theorem UserRange.moved (h : UserRange addr n) : Moved l InWindow addr n := by
  have hlo := h.lo
  have hhi := h.hi
  have hmax : vmUserhi.toNat < 2 ^ 32 := by decide
  refine ⟨fun k hk => ?_, fun j hj => ?_⟩
  · obtain ⟨hpiece, hbuf⟩ := msgPiece_le (n - msgBufSize * k)
    have hfits := l.fits
    have hword := toNat_ofNat_of_piece hbuf
    have hstart : (addr + BitVec.ofNat 32 (msgBufSize * k)).toNat = _ :=
      toNat_add_ofNat (by omega)
    exact accepts_of_inWindow (by omega) (by omega) (by omega)
  · rw [toNat_add_ofNat (by omega)]
    exact ⟨by omega, by omega⟩

variable {P : ℕ → Prop} {pid sendPid : ℕ}

theorem transfers_of_moved (hvm : l.vm.Owns P) (hwindow : ∀ a, InWindow a → P a)
    (hne : sendPid ≠ pid) (hlt : n < 2 ^ 31) (hsource : Moved l P sendAddr n)
    (hdest : Moved l P addr n) (mem : IpcMem φ) :
    Transfers l pid addr sendPid sendAddr n mem := by
  have hcopy : ∀ {mem va}, P va.toNat →
      (ipcCopy l pid addr sendPid sendAddr (BitVec.ofNat 32 n) mem).user.byteAt l.vm pid va =
        if pid = pid ∧ (va - addr).toNat < n then
          mem.user.byteAt l.vm sendPid (sendAddr + (va - addr))
        else mem.user.byteAt l.vm pid va := by
    intro mem va hva
    rw [ipcCopy, toInt_toNat_length hlt]
    exact ipcCopyLoop_byteAt hvm hne (by omega) hdest hsource hva
  refine ⟨fun j hj => ?_, fun mem' hsame hsent va hva => ?_⟩
  · have hoffset : (addr + BitVec.ofNat 32 j) - addr = BitVec.ofNat 32 j := by
      rw [BitVec.add_comm, BitVec.add_sub_cancel]
    rw [hcopy (hdest.inside j hj), hoffset, BitVec.toNat_ofNat, Nat.mod_eq_of_lt (by omega),
      if_pos ⟨rfl, hj⟩]
  · rw [hcopy (hwindow _ hva), hcopy (hwindow _ hva)]
    by_cases hin : (va - addr).toNat < n
    · have hbyte := hsent _ hin
      rw [BitVec.ofNat_toNat, BitVec.setWidth_eq] at hbyte
      rw [if_pos ⟨rfl, hin⟩, if_pos ⟨rfl, hin⟩, hbyte]
    · rw [if_neg fun h => hin h.2, if_neg fun h => hin h.2, hsame va hva]

theorem transfers_of_zero (mem : IpcMem φ) : Transfers l pid addr sendPid sendAddr 0 mem := by
  have hcopy : ∀ mem, ipcCopy l pid addr sendPid sendAddr 0 mem = mem := by
    intro mem
    rw [ipcCopy, show (0 : BitVec 32).toInt.toNat = 0 from rfl, ipcCopyLoop, if_pos rfl]
  refine ⟨fun j hj => absurd hj (Nat.not_lt_zero j), fun mem' hsame _ => ?_⟩
  have hcopies := hcopy mem
  have hcopies' := hcopy mem'
  exact hcopies.symm ▸ hcopies'.symm ▸ hsame

/-- The memory that is zero but for one byte of the sender. -/
def markedMem (l : Layout φ) (sendPid : ℕ) (one : BitVec 32) : IpcMem φ where
  user := ⟨fun _ _ => false, fun f o => if f = l.vm.frame sendPid (pageOf one) ∧ o = pageOffset one
    then 1 else 0, []⟩
  msgBuf _ := 0

theorem blank_markedMem (hvm : l.vm.Owns fun _ => True) (one : BitVec 32) :
    Blank l sendPid one (markedMem l sendPid one) where
  buf j := by simp [markedMem, Bytes.byte]
  user p va hother := by
    refine if_neg fun hhit => hother ?_
    obtain ⟨rfl, hpage⟩ := hvm _ _ _ _ trivial trivial hhit.1
    refine ⟨rfl, BitVec.eq_of_toNat_eq ?_⟩
    have hoffset := hhit.2
    unfold pageOf at hpage
    unfold pageOffset at hoffset
    rw [← Nat.div_add_mod va.toNat Pmm.pagesize, hpage, hoffset, Nat.div_add_mod]

/-- Where every page of every process has a frame of its own, a copy with a piece that is not
accepted on both sides loses a byte for some memory. -/
theorem moved_of_transfers (hvm : l.vm.Owns fun _ => True) (hne : sendPid ≠ pid)
    (hword : n < 2 ^ 32) (h : ∀ mem, Transfers l pid addr sendPid sendAddr n mem) (hn : n ≠ 0) :
    n < 2 ^ 31 ∧ ∀ k, msgBufSize * k < n →
      l.Takes (sendAddr + BitVec.ofNat 32 (msgBufSize * k)) (msgPiece (n - msgBufSize * k)) ∧
        l.Takes (addr + BitVec.ofNat 32 (msgBufSize * k)) (msgPiece (n - msgBufSize * k)) := by
  have hmarked : ∀ one, (markedMem l sendPid one).user.byteAt l.vm sendPid one = 1 :=
    fun one => if_pos ⟨rfl, rfl⟩
  have hlt : n < 2 ^ 31 := by
    by_contra hlong
    have hbyte := (h (markedMem l sendPid sendAddr)).bytes 0 (Nat.pos_of_ne_zero hn)
    have hneg : (BitVec.ofNat 32 n).toInt.toNat = 0 := by
      rw [BitVec.toInt_eq_toNat_cond, BitVec.toNat_ofNat, Nat.mod_eq_of_lt hword]
      split <;> omega
    rw [ipcCopy, hneg, ipcCopyLoop, if_pos rfl, BitVec.add_zero, BitVec.add_zero, hmarked,
      (blank_markedMem hvm sendAddr).user _ _ fun hsender => hne hsender.1.symm] at hbyte
    cases hbyte
  refine ⟨hlt, fun k hk => ?_⟩
  by_contra hrejected
  have hlost := (blank_markedMem hvm _).ipcCopyLoop hvm hne hlt hk hrejected
  have hbyte := (h (markedMem l sendPid (sendAddr + BitVec.ofNat 32 (msgBufSize * k)))).bytes _ hk
  rw [ipcCopy, toInt_toNat_length hlt, hlost, hmarked] at hbyte
  cases hbyte

end Ranges

/-- **A message is the sender's bytes and nothing else, just if all its pieces are accepted.** In
every run without SIGKILL the receiver of a completed receive is not the sender.  The receive
copies with `ipc_copy`.  From user memory to user memory the copy transfers the message and leaves
the memory of all other processes alone.  If every page of every process has a frame of its own,
it transfers a message whatever the memory holds exactly if the length is 0, or it is not negative
as an `int` and every piece is accepted on both sides. -/
theorem receive_transfers (hvm : l.vm.OwnPages) :
    (∀ init trace k next pid sendPid addr recvLength n,
      (ipcMonitor (copyEnv l sendCv recvCv)).machine.Run Kernel.ProcessStep
        (Kernel.boot (Msg.ipcInit init)) trace k →
      Receives (copyEnv l sendCv recvCv) k next pid sendPid addr recvLength n →
      sendPid ≠ pid) ∧
    (∀ k next pid sendPid addr recvLength n,
      Receives (copyEnv l sendCv recvCv) k next pid sendPid addr recvLength n →
      next.shared.mem = ipcCopy l pid (BitVec.ofNat 32 addr) sendPid
        (BitVec.ofNat 32 (k.shared.bufferAddr sendPid)) (BitVec.ofNat 32 n) k.shared.mem) ∧
    ∀ pid sendPid sendAddr addr n, sendPid ≠ pid → n < 2 ^ 32 →
      (n < 2 ^ 31 → UserRange sendAddr n → UserRange addr n →
        ∀ mem, Transfers l pid addr sendPid sendAddr n mem ∧ ∀ p ≠ pid, SameMemory l p mem
          (ipcCopy l pid addr sendPid sendAddr (BitVec.ofNat 32 n) mem)) ∧
      (l.vm.Owns (fun _ => True) → ((∀ mem, Transfers l pid addr sendPid sendAddr n mem) ↔
        n = 0 ∨ n < 2 ^ 31 ∧ ∀ k, msgBufSize * k < n →
          l.Takes (sendAddr + BitVec.ofNat 32 (msgBufSize * k)) (msgPiece (n - msgBufSize * k)) ∧
          l.Takes (addr + BitVec.ofNat 32 (msgBufSize * k)) (msgPiece (n - msgBufSize * k)))) := by
  refine ⟨?_, ?_, ?_⟩
  · intro init trace k next pid sendPid addr recvLength n run h
    exact h.sender_ne (settled_of_ipcRun run)
  · intro k next pid sendPid addr recvLength n h
    exact h.mem_eq
  · intro pid sendPid sendAddr addr n hne hword
    refine ⟨fun hlt hsource hdest mem => ⟨?_, fun p hp va hva => ?_⟩, fun hown => ⟨?_, ?_⟩⟩
    · exact transfers_of_moved hvm (fun _ h => h) hne hlt hsource.moved hdest.moved mem
    · rw [ipcCopy, toInt_toNat_length hlt,
        ipcCopyLoop_byteAt hvm hne hword hdest.moved hsource.moved hva, if_neg fun h => hp h.1]
    · exact fun h => or_iff_not_imp_left.mpr (moved_of_transfers hown hne hword h)
    · rintro (rfl | ⟨hlt, htakes⟩) mem
      · exact transfers_of_zero mem
      · exact transfers_of_moved hown (fun _ _ => trivial) hne hlt
          ⟨fun k hk => (htakes k hk).1, fun _ _ => trivial⟩
          ⟨fun k hk => (htakes k hk).2, fun _ _ => trivial⟩ mem

end Transfer

def plainLayout : Layout (ℕ × ℕ) where
  vm := ⟨Prod.mk⟩
  msgBufAddr := 0x100000
  fits := by decide

theorem plainLayout_owns {P : ℕ → Prop} : plainLayout.vm.Owns P := by
  intro pid pid' va va' _ _ hframe
  exact Prod.mk.inj hframe

def staleMem : IpcMem (ℕ × ℕ) where
  user := ⟨fun _ _ => false, fun page _ => BitVec.ofNat 8 page.1, []⟩
  msgBuf _ := 7

def plainCopyEnv : Env ℕ (IpcMem (ℕ × ℕ)) := copyEnv plainLayout (2 * ·) (2 * · + 1)

def oneByteSent (sendAddr : ℕ) : List (Op Call Empty) :=
  [.spawn 1, .spawn 2, .handoff 1, .call (.send 2 sendAddr 1)]

def oneByteRecv : Op Call Empty := .call (.recv 1 0x50000000 1)

/-- What is looked at before the receive, and the result of the receive. -/
def oneByteView (sendAddr : ℕ) : Option (ℕ × ℕ × BitVec 8 × BitVec 8 × Output Ret) :=
  ((ipcMonitor plainCopyEnv).machine.runAll (Kernel.boot (Msg.ipcInit staleMem))
      (oneByteSent sendAddr)).bind fun r =>
    ((ipcMonitor plainCopyEnv).exec r.1 oneByteRecv).map fun next =>
      (r.1.sched.curid, r.1.shared.bufferAddr 1,
        r.1.shared.mem.user.byteAt plainLayout.vm 1 (BitVec.ofNat 32 sendAddr),
        r.1.shared.mem.msgBuf.byte 0, next.2)

theorem receives_of_view {sendAddr : ℕ} {sent stale : BitVec 8}
    (hview : oneByteView sendAddr = some (2, sendAddr, sent, stale, .ret 2 (.received 1))) :
    ∃ k next trace, (ipcMonitor plainCopyEnv).machine.Run Machine.anyStep
      (Kernel.boot (Msg.ipcInit staleMem)) trace k ∧
      Receives plainCopyEnv k next 2 1 0x50000000 1 1 ∧ k.shared.bufferAddr 1 = sendAddr ∧
      k.shared.mem.user.byteAt plainLayout.vm 1 (BitVec.ofNat 32 sendAddr) = sent ∧
      k.shared.mem.msgBuf.byte 0 = stale := by
  obtain ⟨⟨k, outs⟩, hall, hnext⟩ := Option.bind_eq_some_iff.mp hview
  obtain ⟨⟨next, out⟩, hexec, heq⟩ := Option.map_eq_some_iff.mp hnext
  simp only [Prod.mk.injEq] at heq
  obtain ⟨hcur, haddr, hsent, hstale, rfl⟩ := heq
  refine ⟨k, next, _, Machine.run_of_runAll (fun _ _ _ => trivial) hall, ⟨oneByteRecv, ?_, hexec⟩,
    haddr, hsent, hstale⟩
  simp [oneByteRecv, Kernel.dataOp, loopOf, hcur]

theorem receive_transfers_one_byte : ∃ k next, Receives plainCopyEnv k next 2 1 0x50000000 1 1 ∧
      next.shared.mem.user.byteAt plainLayout.vm 2 0x50000000 = 1 := by
  have hview : oneByteView 0x40000000 =
      some (2, 0x40000000, 1, 7, .ret 2 (.received 1)) := by decide +kernel
  obtain ⟨k, next, trace, -, hrecv, haddr, hsent, -⟩ := receives_of_view hview
  obtain ⟨-, hcopies, htransfers⟩ := @receive_transfers _ ℕ _ _ _ (2 * ·) (2 * · + 1)
    plainLayout_owns
  have hmem := hcopies k next 2 1 0x50000000 1 1 hrecv
  rw [haddr] at hmem
  have hbytes := ((htransfers 2 1 0x40000000 0x50000000 1 (by decide) (by decide)).1 (by decide)
    ⟨by decide, by decide⟩ ⟨by decide, by decide⟩ k.shared.mem).1.bytes 0 (by decide)
  refine ⟨k, next, hrecv, ?_⟩
  rw [hmem]
  exact hbytes.trans hsent

/-- Process 1 names an address outside user memory.  The receive reports one byte, and the
byte that arrives is the one an earlier message left in `msg_buf`. -/
theorem receive_leaks_stale_byte :
    ∃ k next trace, (ipcMonitor plainCopyEnv).machine.Run Machine.anyStep
      (Kernel.boot (Msg.ipcInit staleMem)) trace k ∧
      Receives plainCopyEnv k next 2 1 0x50000000 1 1 ∧ k.shared.bufferAddr 1 = 0 ∧
      k.shared.mem.user.byteAt plainLayout.vm 1 0 = 1 ∧
      k.shared.mem.msgBuf.byte 0 = 7 ∧
      next.shared.mem.user.byteAt plainLayout.vm 2 0x50000000 = 7 := by
  have hview : oneByteView 0 = some (2, 0, 1, 7, .ret 2 (.received 1)) := by decide +kernel
  obtain ⟨k, next, trace, run, hrecv, haddr, hsent, hstale⟩ := receives_of_view hview
  refine ⟨k, next, trace, run, hrecv, haddr, hsent, hstale, ?_⟩
  have hloop : ∀ mem, ipcCopy plainLayout 2 0x50000000 1 0 1 mem =
      copyRound plainLayout mem 2 0x50000000 1 0 1 := by
    intro mem
    rw [ipcCopy, show (1 : BitVec 32).toInt.toNat = 1 from rfl, ipcCopyLoop, if_neg (by decide),
      ipcCopyLoop]
    rfl
  have hbyte : (copyRound plainLayout k.shared.mem 2 0x50000000 1 0
      (BitVec.ofNat 32 1)).user.byteAt plainLayout.vm 2 0x50000000 = _ :=
    copyRound_byteAt (plainLayout_owns (P := fun _ => True)) (by decide) (fun _ _ _ => trivial)
      trivial
  rw [if_pos (by decide), copyRound_msgBuf (by decide), if_neg (by decide)] at hbyte
  rw [hrecv.mem_eq, haddr]
  exact (congrArg (·.user.byteAt plainLayout.vm 2 0x50000000) (hloop _)).trans (hbyte.trans hstale)

end MCertikos.Ipc
