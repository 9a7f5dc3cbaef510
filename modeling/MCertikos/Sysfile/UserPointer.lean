/-
# Rejected user pointers

Seven calls read a buffer of the user: five a path, `sys_sigaction` a new action, `sys_write` its
data.
-/

import MCertikos.Sysfile.Transactions

namespace MCertikos.Sysfile

open Math FS UserMem

/-- A buffer of the kernel: its address, and what it holds when a call starts. -/
structure KernelBuf (n : ℕ) where
  addr : BitVec 32
  stale : Bytes n

def pathBufSize : ℕ := 128

/-- The buffers of the handlers: the locals `path`, `old`, `new` and `kern_act`, and the static
`kern_buf`. -/
structure KernelBufs where
  path : KernelBuf pathBufSize
  old : KernelBuf pathBufSize
  new : KernelBuf pathBufSize
  kernAct : KernelBuf sigactionSize
  kernBuf : KernelBuf kernBufSize

def KernelBuf.InKernel {n : ℕ} (buf : KernelBuf n) : Prop :=
  buf.addr.toNat + n ≤ vmUserlo.toNat

inductive Request
  | open (path omode len : BitVec 32)
  | mkdir (path len : BitVec 32)
  | chdir (path len : BitVec 32)
  | link (old new oldLen newLen : BitVec 32)
  | unlink (path len : BitVec 32)
  | write (fd userBuf n : BitVec 32)
  | sigaction (signum userAct userOldact : BitVec 32)

def pathLen (len : BitVec 32) : BitVec 32 := if len < 128 then len else 127

section Handlers

variable {φ : Type*} (m : Memory φ) (vm : Vm φ) (pid : ℕ)

/-- `pt_copyin` of a path, and the null byte that the handler puts behind it: the memory and
the bytes of the buffer. -/
def copyPath (uva : BitVec 32) (buf : KernelBuf pathBufSize) (len : BitVec 32) :
    Memory φ × List Byte :=
  let copy := m.ptCopyin vm pid uva buf.addr (pathLen len)
  let path := fill buf.stale copy.2
  (copy.1, (List.range pathBufSize).map fun j =>
    if j = (pathLen len).toNat then 0 else path.byte j)

variable (bufs : KernelBufs)

namespace Request

def call : Request → Option Call
  | .open path omode len => some (.open (copyPath m vm pid path bufs.path len).2 omode)
  | .mkdir path len => some (.mkdir (copyPath m vm pid path bufs.path len).2)
  | .chdir path len => some (.chdir (copyPath m vm pid path bufs.path len).2)
  | .link old new oldLen newLen =>
    let first := copyPath m vm pid old bufs.old oldLen
    some (.link first.2 (copyPath first.1 vm pid new bufs.new newLen).2)
  | .unlink path len => some (.unlink (copyPath m vm pid path bufs.path len).2)
  | .write fd userBuf n =>
    let copy := m.ptCopyin vm pid userBuf bufs.kernBuf.addr n
    some (.write fd.toNat userBuf n (fill bufs.kernBuf.stale copy.2).byte)
  | .sigaction _ _ _ => none

def Rejected : Request → Prop
  | .open path _ len | .mkdir path len | .chdir path len | .unlink path len =>
    (m.ptCopyin vm pid path bufs.path.addr (pathLen len)).2.length < (pathLen len).toNat
  | .link old new oldLen newLen =>
    (m.ptCopyin vm pid old bufs.old.addr (pathLen oldLen)).2.length < (pathLen oldLen).toNat ∨
    (m.ptCopyin vm pid new bufs.new.addr (pathLen newLen)).2.length < (pathLen newLen).toNat
  | .write _ userBuf n => (m.ptCopyin vm pid userBuf bufs.kernBuf.addr n).2.length < n.toNat
  | .sigaction _ userAct _ => userAct ≠ 0 ∧
      (m.ptCopyin vm pid userAct bufs.kernAct.addr (BitVec.ofNat 32 sigactionSize)).2.length <
        sigactionSize

end Request

end Handlers

def Request.checksFirst : Request → Bool
  | .write _ _ _ => true
  | .sigaction signum _ _ => signum.toInt < 1 ∨ (nsig : ℤ) ≤ signum.toInt
  | _ => false

section Rejected

variable {φ : Type*} {m : Memory φ} {vm : Vm φ} {pid : ℕ} {uva kva n : BitVec 32}

theorem not_accepts_of_length_lt (h : (m.ptCopyin vm pid uva kva n).2.length < n.toNat) :
    ¬ Accepts uva kva n := by
  intro hacc
  rw [Memory.ptCopyin_of_accepts hacc, (Memory.copyinLoop_spec ..).2.2, List.length_map,
    length_span] at h
  exact absurd h (lt_irrefl _)

theorem illegalUserBuf_of_not_accepts {buf : KernelBuf kernBufSize} (hbuf : buf.InKernel)
    (h : ¬ Accepts uva buf.addr n) : illegalUserBuf uva n = true := by
  unfold illegalUserBuf
  rw [decide_eq_true_iff]
  by_contra hlegal
  push Not at hlegal
  obtain ⟨hlo, hhi, hn⟩ := hlegal
  -- the kernel's buffer ends below the user window, so its range is never the reason
  have hkernel : buf.addr + n ≤ vmUserhi := by
    have hend : buf.addr.toNat + kernBufSize ≤ vmUserlo.toNat := hbuf
    have hlt : vmUserlo.toNat < vmUserhi.toNat := by decide
    rw [BitVec.le_def, BitVec.toNat_add]
    exact (Nat.mod_le _ _).trans (by omega)
  exact h ⟨BitVec.not_lt.mp hlo, BitVec.not_lt.mp hhi, hkernel⟩

end Rejected

theorem advance_withBufLock_pure {w : World} (pid : ℕ) (hlock : w.shared.bufLock = false)
    (r : Reply) : ∃ w', (withBufLock (pure r)).advance step pid w [] = .returned w' [] r ∧
      w'.shared = w.shared ∧ ∀ p, (w'.proc p).cwd = (w.proc p).cwd ∧
        (w'.proc p).openfiles = (w.proc p).openfiles := by
  obtain ⟨shared, proc⟩ := w
  cases shared
  cases hlock
  refine ⟨_, rfl, rfl, fun p => ?_⟩
  by_cases hp : p = pid
  · subst hp
    simp [Proc.after]
  · simp [hp]

theorem writeLocked_of_illegal {userBuf n : BitVec 32} (h : illegalUserBuf userBuf n = true)
    (fd : ℕ) (src : ℕ → Byte) :
    ∃ errno, errno ≠ .succ ∧ writeLocked fd userBuf n src = pure (reply errno (some (-1))) := by
  by_cases hfd : nofile ≤ fd
  · exact ⟨.badf, by decide, if_pos hfd⟩
  · exact ⟨.invalAddr, by decide, (if_neg hfd).trans (if_pos h)⟩

/-- **A rejected pointer has no effect where it is checked for.** Let `pt_copyin` refuse the
buffer of a `sys_write`, or the action of a `sys_sigaction` for a signal that does not exist.
The call then reports an error and leaves the file system, the descriptors, the working
directories and the handlers of the signals as they were. -/
theorem rejected_pointer_without_effect {φ : Type*} [DecidableEq φ] (m : Memory φ) (vm : Vm φ)
    (pid : ℕ) (bufs : KernelBufs) (hbuf : bufs.kernBuf.InKernel) (w : World) (sig : SigState)
    (hlock : w.shared.bufLock = false) (r : Request) (hchecks : r.checksFirst = true)
    (hrejected : r.Rejected m vm pid bufs) :
    (∀ c ∈ r.call m vm pid bufs, ∃ w' reply,
      c.code.advance step pid w [] = .returned w' [] reply ∧ reply.errno ≠ .succ ∧
      w'.shared = w.shared ∧ ∀ p, (w'.proc p).cwd = (w.proc p).cwd ∧
        (w'.proc p).openfiles = (w.proc p).openfiles) ∧
    ∀ signum userAct userOldact curActAddr, r = .sigaction signum userAct userOldact →
      (sysSigaction m vm pid sig curActAddr bufs.kernAct.addr bufs.kernAct.stale signum userAct
        userOldact).2 = (.invalSignum, sig) := by
  cases r with
  | write fd userBuf n =>
    refine ⟨?_, (fun _ _ _ _ h => by cases h)⟩
    rintro _ ⟨⟩
    have hillegal := illegalUserBuf_of_not_accepts hbuf (not_accepts_of_length_lt hrejected)
    obtain ⟨errno, herrno, hwrite⟩ := writeLocked_of_illegal hillegal fd.toNat
      (fill bufs.kernBuf.stale (m.ptCopyin vm pid userBuf bufs.kernBuf.addr n).2).byte
    obtain ⟨w', hadvance, hsame⟩ :=
      advance_withBufLock_pure pid hlock (reply errno (some (-1)))
    refine ⟨w', reply errno (some (-1)), ?_, herrno, hsame⟩
    rw [← hwrite] at hadvance
    exact hadvance
  | sigaction signum userAct userOldact =>
    refine ⟨(fun c hc => by cases hc), ?_⟩
    rintro _ _ _ curActAddr ⟨⟩
    rw [sysSigaction, if_pos (of_decide_eq_true hchecks)]
  | _ => cases hchecks

/-! ## Rejected pointers that act -/

@[simp] theorem fill_nil {n : ℕ} (buf : Bytes n) : fill buf [] = buf := by
  funext j
  simp [fill, Bytes.memmove]

theorem sysSigaction_of_not_accepts {φ : Type*} [DecidableEq φ] (m : Memory φ) (vm : Vm φ)
    (pid : ℕ) (sig : SigState) (curActAddr : BitVec 32) {kernActAddr : BitVec 32}
    (kernAct : Bytes sigactionSize) {signum userAct : BitVec 32} (userOldact : BitVec 32)
    (hsignum : ¬ (signum.toInt < 1 ∨ (nsig : ℤ) ≤ signum.toInt)) (hact : userAct ≠ 0)
    (hrejected : ¬ Accepts userAct kernActAddr (BitVec.ofNat 32 sigactionSize)) :
    (sysSigaction m vm pid sig curActAddr kernActAddr kernAct signum userAct userOldact).2 =
      (.succ, { sig with sigactions := Function.update sig.sigactions signum.toNat kernAct }) := by
  rw [sysSigaction, if_neg hsignum]
  simp only [if_pos hact, Memory.ptCopyin, if_neg hrejected, fill_nil]

def bareMemory : Memory Unit := ⟨fun _ _ => false, fun _ _ => 0, []⟩

def bareVm : Vm Unit := ⟨fun _ _ => ()⟩

/-- Buffers with a path from an earlier call, and with a longer one for the new name of a link. -/
def leftovers (path : List Byte) : KernelBufs where
  path := ⟨0x200000, fun j => path.getD j 0⟩
  old := ⟨0x200000, fun j => path.getD j 0⟩
  new := ⟨0x200080, fun j => (path ++ [0x65]).getD j 0⟩
  kernAct := ⟨0x200000, fun _ => 1⟩
  kernBuf := ⟨0x100000, fun _ => 1⟩

theorem rejected_pointer_without_effect_null :
    ∃ c w' reply, (Request.write 0 0 4).call bareMemory bareVm 1 (leftovers []) = some c ∧
      c.code.advance step 1 (.boot mkfsDisk) [] = .returned w' [] reply ∧
      reply.errno ≠ .succ ∧ w'.shared = .boot mkfsDisk := by
  have hrejected : (Request.write 0 0 4).Rejected bareMemory bareVm 1 (leftovers []) := by
    unfold Request.Rejected
    decide
  obtain ⟨hcall, -⟩ := rejected_pointer_without_effect bareMemory bareVm 1 (leftovers [])
    (by unfold KernelBuf.InKernel; decide) (.boot mkfsDisk) ⟨fun _ _ => 0, 0, 0, false⟩ rfl
    (.write 0 0 4) rfl hrejected
  obtain ⟨w', reply, hadvance, herrno, hshared, -⟩ := hcall _ rfl
  exact ⟨_, w', reply, rfl, hadvance, herrno, hshared⟩

def returning {β : Type} : Code β → Option β
  | .ret value => some value
  | .act _ _ => none

def replyOf (k : Calls) (p : ℕ) : Option Reply := (k.running p).bind fun x => returning x.2

def Call.ofHandler : Call → Bool
  | .open path _ | .mkdir path | .chdir path | .link path _ | .unlink path =>
    path.length = pathBufSize
  | _ => false

def UpToReply (k : Calls) : ThreadOp Call Unit → Prop
  | .act p => ∀ x ∈ k.running p, x.1.ofHandler = true → returning x.2 = none
  | _ => True

instance (k : Calls) : (op : ThreadOp Call Unit) → Decidable (UpToReply k op)
  | .act p => inferInstanceAs
      (Decidable (∀ x ∈ k.running p, x.1.ofHandler = true → returning x.2 = none))
  | .start _ _ => isTrue trivial
  | .intr _ => isTrue trivial

/-- A session, and then a request with a rejected pointer up to its reply; the buffers of the
handler hold the path `/d`. -/
def withLeftovers (session : List (ℕ × Call)) (r : Request) : Calls :=
  after UpToReply (inSequence (session ++
    (r.call bareMemory bareVm 1 (leftovers dPath)).toList.map fun c => (1, c)))

theorem run_withLeftovers (session : List (ℕ × Call)) (r : Request) : ∃ trace,
    (system Call.code).machine.Run Machine.anyStep mkfsBoot trace (withLeftovers session r) := by
  obtain ⟨trace, hrun⟩ := System.run_of_play UpToReply 2000
    (inSequence (session ++ (r.call bareMemory bareVm 1 (leftovers dPath)).toList.map
      fun c => (1, c))) mkfsBoot
  exact ⟨trace, hrun.weaken fun _ _ _ => trivial⟩

def opened : ℕ × Call := (2, .open [slash] 0)

def made : ℕ × Call := (2, .mkdir dPath)

def created : ℕ × Call := (2, .open dPath oCreate)

/-- With a null pointer, `sys_mkdir` makes the directory that the kernel's stack names,
`sys_open` opens it, `sys_chdir` makes it the working directory, `sys_link` gives a file the
second name from the stack, `sys_unlink` removes the directory, and `sys_sigaction` installs an
action from the stack. -/
theorem leftovers_take_effect :
    (∀ r ∈ [Request.mkdir 0 2, .open 0 0 2, .chdir 0 2, .link 0 0 2 3, .unlink 0 2,
        .sigaction 5 1 0], r.Rejected bareMemory bareVm 1 (leftovers dPath)) ∧
    (∀ session r, ∃ trace, (system Call.code).machine.Run Machine.anyStep mkfsBoot trace
      (withLeftovers session r)) ∧
    (replyOf (withLeftovers [opened] (.mkdir 0 2)) 1 = some (reply .succ none) ∧
      (mkfsDisk 29).byte 34 = 0 ∧
      ((withLeftovers [opened] (.mkdir 0 2)).state.shared.disk 29).byte 34 = 0x64) ∧
    (replyOf (withLeftovers [opened, made] (.open 0 0 2)) 1 = some (reply .succ (some 0)) ∧
      ((withLeftovers [opened, made] (.open 0 0 2)).state.proc 1).openfiles 0 ≠ none) ∧
    (replyOf (withLeftovers [opened, made, (1, .ls 100)] (.chdir 0 2)) 1 =
        some (reply .succ none) ∧
      ((withLeftovers [opened, made, (1, .ls 100)] (.chdir 0 2)).state.proc 1).cwd ≠
        ((after UpToReply (inSequence [opened, made, (1, .ls 100)])).state.proc 1).cwd) ∧
    (replyOf (withLeftovers [opened, created] (.link 0 0 2 3)) 1 = some (reply .succ none) ∧
      ((after UpToReply (inSequence [opened, created])).state.shared.disk 29).byte 51 = 0 ∧
      ((withLeftovers [opened, created] (.link 0 0 2 3)).state.shared.disk 29).byte 51 = 0x65) ∧
    (replyOf (withLeftovers [opened, made] (.unlink 0 2)) 1 = some (reply .succ none) ∧
      ((after UpToReply (inSequence [opened, made])).state.shared.disk 29).byte 34 = 0x64 ∧
      ((withLeftovers [opened, made] (.unlink 0 2)).state.shared.disk 29).byte 34 = 0) ∧
    (sysSigaction bareMemory bareVm 1 ⟨fun _ _ => 0, 0, 0, false⟩ 0x300000 0x200000 (fun _ => 1)
      5 1 0).2.1 = .succ ∧
    (sysSigaction bareMemory bareVm 1 ⟨fun _ _ => 0, 0, 0, false⟩ 0x300000 0x200000 (fun _ => 1)
      5 1 0).2.2.sigactions 5 = fun _ => 1 := by
  refine ⟨?_, run_withLeftovers, by decide +kernel, by decide +kernel, by decide +kernel,
    by decide +kernel, by decide +kernel, ?_⟩
  · intro r hr
    simp only [List.mem_cons, List.not_mem_nil, or_false] at hr
    unfold Request.Rejected
    obtain rfl | rfl | rfl | rfl | rfl | rfl := hr <;> decide
  · rw [sysSigaction_of_not_accepts _ _ _ _ _ _ _ (by decide) (by decide) (by decide)]
    exact ⟨rfl, rfl⟩

end MCertikos.Sysfile
