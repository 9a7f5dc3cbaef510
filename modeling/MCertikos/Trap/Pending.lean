/-
# Signals are neither lost nor duplicated

Senders raise pending bits of their targets in `sys_kill`, and each process clears one bit of its
own on every return to user mode.
-/

import MCertikos.Thread.Pause
import MCertikos.Trap.Sigreturn

namespace MCertikos.Thread.Sched

open Function

universe u

variable {χ : Type u}

@[simp] theorem tqueueEnqueue_pendingSignals (s : Sched χ) (chid pid : ℕ) :
    (s.tqueueEnqueue chid pid).pendingSignals = s.pendingSignals := by
  unfold tqueueEnqueue
  dsimp only
  split <;> rfl

@[simp] theorem tqueueRemove_pendingSignals (s : Sched χ) (chid pid : ℕ) :
    (s.tqueueRemove chid pid).pendingSignals = s.pendingSignals := by
  unfold tqueueRemove
  dsimp only
  split_ifs <;> rfl

variable [DecidableEq χ]

theorem threadWakeup_pendingSignals (s : Sched χ) (chan : χ) :
    (s.threadWakeup chan).pendingSignals = s.pendingSignals := by
  have hone : ∀ (s : Sched χ) pid, (wakeOne chan s pid).pendingSignals = s.pendingSignals := by
    intro s pid
    unfold wakeOne
    split
    · rw [tqueueEnqueue_pendingSignals]
      rfl
    · rfl
  unfold threadWakeup
  induction List.range' 1 (numIds - 1) generalizing s with
  | nil => rfl
  | cons pid rest ih => rw [List.foldl_cons, ih, hone]

theorem postSignal_pendingSignals (s : Sched χ) (pid : ℕ) {signum : ℤ} (hpos : 0 ≤ signum)
    (hlt : signum < nsig) : (s.postSignal pid signum).pendingSignals =
      update s.pendingSignals pid (s.pendingSignals pid ||| 1#32 <<< signum.toNat) := by
  have hadd : (s.tcbAddPendingSignal pid signum).pendingSignals =
      update s.pendingSignals pid (s.pendingSignals pid ||| 1#32 <<< signum.toNat) := by
    rw [tcbAddPendingSignal, if_pos ⟨hpos, hlt⟩]
    rfl
  rw [← hadd]
  unfold postSignal
  dsimp only
  split
  · split
    · rfl
    · exact threadWakeup_pendingSignals _ _
  · rfl

theorem sysKill_pendingSignals (s : Sched χ) (pid signum : ℤ) :
    ((s.sysKill pid signum).1 ≠ .succ ∧
        (s.sysKill pid signum).2.pendingSignals = s.pendingSignals) ∨
      (signum = sigkill ∧ 0 ≤ pid ∧ (s.sysKill pid signum).2.pendingSignals =
        update s.pendingSignals pid.toNat 0) ∨
      (signum ≠ sigkill ∧ (1 ≤ signum ∧ signum < nsig) ∧ 0 ≤ pid ∧
        (s.sysKill pid signum).1 = .succ ∧ (s.sysKill pid signum).2.pendingSignals =
        update s.pendingSignals pid.toNat
          (s.pendingSignals pid.toNat ||| 1#32 <<< signum.toNat)) := by
  by_cases hkill : signum = sigkill
  · subst hkill
    unfold sysKill
    rw [if_neg (by decide)]
    by_cases htarget : s.KillTarget pid
    · rw [if_neg (not_not.mpr htarget), if_pos rfl]
      refine Or.inr (Or.inl ⟨rfl, htarget.1, ?_⟩)
      simp [killTarget, tcbSetPendingSignals, tcbSetState]
    · rw [if_pos htarget]
      exact Or.inl ⟨by simp, rfl⟩
  · obtain ⟨hfail, hsame⟩ | ⟨hrange, htarget, heq⟩ := sysKill_cases s pid hkill
    · exact Or.inl ⟨hfail, by rw [hsame]⟩
    · refine Or.inr (Or.inr ⟨hkill, hrange, htarget.1, by rw [heq], ?_⟩)
      rw [heq]
      exact postSignal_pendingSignals s _ (by omega) hrange.2

end MCertikos.Thread.Sched

namespace MCertikos.Trap

open Math UserMem Thread Function

/-! ## The pending bits -/

theorem getLsbD_raise (pending : BitVec 32) {signum i : ℕ} (hsignum : signum < 32) :
    (pending ||| 1#32 <<< signum).getLsbD i = (pending.getLsbD i || decide (i = signum)) := by
  rw [BitVec.getLsbD_or, ← BitVec.twoPow_eq, BitVec.getLsbD_twoPow, decide_eq_true hsignum,
    Bool.true_and]
  simp only [eq_comm]

theorem getLsbD_clear (pending : BitVec 32) {signum i : ℕ} (hi : i < 32) :
    (pending &&& ~~~(1#32 <<< signum)).getLsbD i = (pending.getLsbD i && decide (i ≠ signum)) := by
  rw [BitVec.getLsbD_and, BitVec.getLsbD_not, ← BitVec.twoPow_eq, BitVec.getLsbD_twoPow,
    decide_eq_true hi, Bool.true_and]
  by_cases heq : i = signum
  · subst heq
    simp [hi]
  · simp [heq, Ne.symm heq]

theorem firstPending_eq_some {pending : BitVec 32} {signum : ℕ}
    (hfirst : firstPending pending = some signum) :
    1 ≤ signum ∧ signum < 32 ∧ pending.getLsbD signum = true ∧
      ∀ i < signum, 1 ≤ i → pending.getLsbD i = false := by
  obtain ⟨hbit, hmem, hlower⟩ := List.find?_range'_eq_some.mp hfirst
  obtain ⟨hone, hlt⟩ := List.mem_range'_1.mp hmem
  have hnsig : UserMem.nsig = 32 := rfl
  exact ⟨hone, by omega, hbit, fun i hi hpos => by simpa using hlower i hpos hi⟩

theorem eq_zero_of_firstPending {pending : BitVec 32} (hfirst : firstPending pending = none)
    (hzero : pending.getLsbD 0 = false) : pending = 0 := by
  apply BitVec.eq_of_getLsbD_eq
  intro i hi
  have hright : (0 : BitVec 32).getLsbD i = false := BitVec.getLsbD_zero
  rw [hright]
  obtain rfl | hpos := Nat.eq_zero_or_pos i
  · exact hzero
  · have hmem : i ∈ List.range' 1 (UserMem.nsig - 1) := by
      have hnsig : UserMem.nsig = 32 := rfl
      exact List.mem_range'_1.mpr ⟨hpos, by omega⟩
    exact Bool.eq_false_iff.mpr (List.find?_eq_none.mp hfirst i hmem)

/-! ## Senders and trap returns -/

/-- The thread table, the user memory, and the signal state and trap frame of every
process. -/
structure SigKernel (χ φ : Type*) where
  sched : Sched χ
  mem : Memory φ
  sig : ℕ → SigState
  tf : ℕ → TrapFrame

inductive PostOp (χ φ : Type*)
  /-- The running process calls `sys_kill`. -/
  | kill (target signum : ℤ)
  /-- The running process returns to user mode. -/
  | trapReturn
  /-- Anything else the kernel and the programs do: only the pending signals stay. -/
  | other (k : SigKernel χ φ)

inductive PostEvent
  | errno (error : Thread.Errno)
  /-- Process `pid` returned to user mode and processed the lowest pending signal `signum`. -/
  | returned (pid : ℕ) (signum : Option ℕ) (delivered : Option Delivered)
  | silent

namespace SigKernel

variable {χ φ : Type*}

def pending (k : SigKernel χ φ) (pid : ℕ) : BitVec 32 := k.sched.pendingSignals pid

def proc (k : SigKernel χ φ) (pid : ℕ) : Proc φ := ⟨k.mem, k.sig pid, k.pending pid, k.tf pid⟩

def setProc (k : SigKernel χ φ) (pid : ℕ) (p : Proc φ) : SigKernel χ φ where
  sched := k.sched.tcbSetPendingSignals pid p.pendingSignals
  mem := p.mem
  sig := update k.sig pid p.sig
  tf := update k.tf pid p.tf

def exec [DecidableEq χ] [DecidableEq φ] (l : SigLayout φ) (k : SigKernel χ φ) :
    PostOp χ φ → Option (SigKernel χ φ × PostEvent)
  | .kill target signum =>
    let r := k.sched.sysKill target signum
    some ({ k with sched := r.2 }, .errno r.1)
  | .trapReturn =>
    let pid := k.sched.curid
    (handlePendingSignals l pid (k.proc pid)).map fun (p, delivered) =>
      (k.setProc pid p, .returned pid (firstPending (k.pending pid)) delivered)
  | .other next =>
    let sched := { next.sched with pendingSignals := k.sched.pendingSignals }
    some ({ next with sched := sched }, .silent)

def postMachine [DecidableEq χ] [DecidableEq φ] (l : SigLayout φ) :
    Machine (SigKernel χ φ) (PostOp χ φ) PostEvent := ⟨exec l⟩

def Spares (pid : ℕ) (_ : SigKernel χ φ) (op : PostOp χ φ) : Prop :=
  op ≠ .kill pid Thread.sigkill

def Posted (pid signum : ℕ) (trace : List (PostOp χ φ × PostEvent)) : Prop :=
  Since (fun event => event = (.kill pid signum, .errno .succ))
    (fun event => ∃ delivered, event.2 = .returned pid (some signum) delivered) trace

structure Pends (pid : ℕ) (trace : List (PostOp χ φ × PostEvent)) (k : SigKernel χ φ) : Prop where
  bit_iff : ∀ signum, 1 ≤ signum → signum < 32 →
    ((k.pending pid).getLsbD signum = true ↔ Posted pid signum trace)
  zero : (k.pending pid).getLsbD 0 = false
  kill : (k.pending pid).getLsbD sigkill = false

section Events

variable {k next : SigKernel χ φ} {pid signum : ℕ} {trace : List (PostOp χ φ × PostEvent)}
  {event : PostOp χ φ × PostEvent}

theorem posted_concat : Posted pid signum (trace ++ [event]) ↔
    event = (.kill pid signum, .errno .succ) ∨
      (Posted pid signum trace ∧ ¬ ∃ delivered, event.2 = .returned pid (some signum) delivered) :=
  since_concat

theorem Pends.of_unchanged (h : Pends pid trace k) (hsame : next.pending pid = k.pending pid)
    (hpost : ∀ signum : ℕ, event ≠ (.kill pid signum, .errno .succ))
    (hreturn : ∀ signum delivered, event.2 ≠ .returned pid (some signum) delivered) :
    Pends pid (trace ++ [event]) next := by
  refine ⟨fun signum hone hlt => ?_, hsame ▸ h.zero, hsame ▸ h.kill⟩
  have hnot : ¬ ∃ delivered, event.2 = .returned pid (some signum) delivered := by
    rintro ⟨delivered, hev⟩
    exact hreturn signum delivered hev
  rw [hsame, h.bit_iff signum hone hlt, posted_concat]
  constructor
  · exact fun hposted => Or.inr ⟨hposted, hnot⟩
  · rintro (heq | ⟨hposted, -⟩)
    · exact absurd heq (hpost signum)
    · exact hposted

theorem Pends.post {number : ℤ} (h : Pends pid trace k) (hone : 1 ≤ number)
    (hlt : number < 32) (hkill : number ≠ Thread.sigkill)
    (hraise : next.pending pid = k.pending pid ||| 1#32 <<< number.toNat) :
    Pends pid (trace ++ [(.kill pid number, .errno .succ)]) next := by
  have hsignum : number.toNat < 32 := by omega
  have hsigkill : Thread.sigkill = 9 := rfl
  refine ⟨fun signum hone' hlt' => ?_, ?_, ?_⟩
  · have hevent : ((.kill pid number, .errno .succ) : PostOp χ φ × PostEvent) =
        (.kill pid signum, .errno .succ) ↔ signum = number.toNat := by
      simp only [Prod.mk.injEq, PostOp.kill.injEq, true_and, and_true]
      omega
    rw [hraise, getLsbD_raise _ hsignum, Bool.or_eq_true, decide_eq_true_eq,
      h.bit_iff signum hone' hlt', posted_concat, hevent, or_comm]
    refine or_congr_right (and_iff_left ?_).symm
    rintro ⟨delivered, hev⟩
    cases hev
  · rw [hraise, getLsbD_raise _ hsignum, h.zero, decide_eq_false (by omega)]
    rfl
  · have hne : ¬ sigkill = number.toNat := by
      unfold sigkill
      omega
    rw [hraise, getLsbD_raise _ hsignum, h.kill, decide_eq_false hne]
    rfl

theorem Pends.process {op : PostOp χ φ} {delivered : Option Delivered} (h : Pends pid trace k)
    (hclear : next.pending pid = k.pending pid &&& ~~~(1#32 <<< signum)) :
    Pends pid (trace ++ [(op, .returned pid (some signum) delivered)]) next := by
  refine ⟨fun i hone hlt => ?_, ?_, ?_⟩
  · have hevent : (∃ d, (PostEvent.returned pid (some signum) delivered) =
        .returned pid (some i) d) ↔ i = signum := by
      constructor
      · rintro ⟨d, heq⟩
        cases heq
        rfl
      · rintro rfl
        exact ⟨delivered, rfl⟩
    rw [hclear, getLsbD_clear _ hlt, Bool.and_eq_true, decide_eq_true_eq, h.bit_iff i hone hlt,
      posted_concat, hevent]
    constructor
    · exact Or.inr
    · rintro (heq | hboth)
      · cases heq
      · exact hboth
  · rw [hclear, getLsbD_clear _ (by decide), h.zero, Bool.false_and]
  · rw [hclear, getLsbD_clear _ (by decide), h.kill, Bool.false_and]

@[simp] theorem pending_setProc_self (k : SigKernel χ φ) (pid : ℕ) (p : Proc φ) :
    (k.setProc pid p).pending pid = p.pendingSignals := update_self _ _ _

theorem pending_setProc_of_ne {other : ℕ} (hne : pid ≠ other) (p : Proc φ) :
    (k.setProc other p).pending pid = k.pending pid := update_of_ne hne _ _

theorem Pends.sysKill [DecidableEq χ] (h : Pends pid trace k) {target signum : ℤ}
    (hspares : Spares pid k (.kill target signum)) :
    Pends pid (trace ++ [(.kill target signum, .errno (k.sched.sysKill target signum).1)])
      { k with sched := (k.sched.sysKill target signum).2 } := by
  have hne : signum = Thread.sigkill → target ≠ pid := by
    rintro rfl rfl
    exact hspares rfl
  obtain ⟨hfail, hsame⟩ | ⟨hkill, hpos, hupdate⟩ | ⟨hkill, hrange, hpos, hsucc, hupdate⟩ :=
    k.sched.sysKill_pendingSignals target signum
  · refine h.of_unchanged (congrFun hsame pid) ?_ (by simp)
    rintro number heq
    exact hfail (PostEvent.errno.inj (Prod.mk.inj heq).2)
  · have hother : pid ≠ target.toNat := by
      have := hne hkill
      omega
    refine h.of_unchanged ((congrFun hupdate pid).trans (update_of_ne hother _ _)) ?_
      (by simp)
    rintro number heq
    exact hne hkill (PostOp.kill.inj (Prod.mk.inj heq).1).1
  · by_cases htarget : target = pid
    · subst htarget
      rw [hsucc]
      refine h.post hrange.1 hrange.2 hkill ?_
      rw [Int.toNat_natCast] at hupdate
      exact (congrFun hupdate pid).trans (update_self _ _ _)
    · have hother : pid ≠ target.toNat := by omega
      refine h.of_unchanged ((congrFun hupdate pid).trans (update_of_ne hother _ _)) ?_
        (by simp)
      rintro number heq
      exact htarget (PostOp.kill.inj (Prod.mk.inj heq).1).1

end Events

/-! ## One step -/

section Step

variable [DecidableEq φ] {l : SigLayout φ}

theorem exists_handled (l : SigLayout φ) (pid : ℕ) (p : Proc φ) {signum : ℕ}
    (hfirst : firstPending p.pendingSignals = some signum) (hkill : signum ≠ sigkill) :
    ∃ next delivered, handlePendingSignals l pid p = some (next, delivered) ∧
      next.pendingSignals = p.pendingSignals &&& ~~~(1#32 <<< signum) ∧
      (saHandler (p.sig.sigactions signum) = 0 → delivered = none ∧ next.tf = p.tf) ∧
      (saHandler (p.sig.sigactions signum) ≠ 0 →
        delivered = some ⟨p.tf.esp, p.tf.eip, entryEsp p.tf.esp⟩ ∧
        next.tf = { p.tf with
          esp := entryEsp p.tf.esp, eip := saHandler (p.sig.sigactions signum) }) := by
  by_cases hhandler : saHandler (p.sig.sigactions signum) = 0
  · unfold handlePendingSignals deliverSignal
    simp only [hfirst, hkill, if_false, hhandler, if_true]
    exact ⟨_, _, rfl, rfl, fun _ => ⟨rfl, rfl⟩, fun hne => absurd rfl hne⟩
  · unfold handlePendingSignals deliverSignal
    simp only [hfirst, hkill, if_false, hhandler]
    exact ⟨_, _, rfl, rfl, fun heq => heq.elim, fun _ => ⟨rfl, rfl⟩⟩

variable {p : Proc φ}

theorem handlePendingSignals_of_none (hfirst : firstPending p.pendingSignals = none) :
    handlePendingSignals l pid p = some (p, none) := by
  unfold handlePendingSignals
  rw [hfirst]

variable {k next : SigKernel χ φ} {pid : ℕ} {trace : List (PostOp χ φ × PostEvent)}
  {delivered : Option Delivered}

theorem Pends.trapReturn (h : Pends pid trace k)
    (hhandle : handlePendingSignals l k.sched.curid (k.proc k.sched.curid) = some (p, delivered)) :
    Pends pid (trace ++ [(.trapReturn, .returned k.sched.curid
      (firstPending (k.pending k.sched.curid)) delivered)]) (k.setProc k.sched.curid p) := by
  by_cases hpid : pid = k.sched.curid
  · subst hpid
    cases hfirst : firstPending (k.pending k.sched.curid) with
    | none =>
      rw [handlePendingSignals_of_none hfirst] at hhandle
      obtain ⟨rfl, rfl⟩ := Prod.mk.inj (Option.some.inj hhandle)
      exact h.of_unchanged (pending_setProc_self _ _ _) (by simp) (by simp)
    | some signum =>
      have hbit := (firstPending_eq_some hfirst).2.2.1
      have hkill : signum ≠ sigkill := by
        rintro rfl
        exact absurd (hbit.symm.trans h.kill) (by decide)
      obtain ⟨next, d, heq, hpending, -⟩ :=
        exists_handled l k.sched.curid (k.proc k.sched.curid) hfirst hkill
      obtain ⟨rfl, rfl⟩ := Prod.mk.inj (Option.some.inj (heq.symm.trans hhandle))
      exact h.process ((pending_setProc_self _ _ _).trans hpending)
  · refine h.of_unchanged (pending_setProc_of_ne hpid p) (by simp) ?_
    rintro signum d heq
    exact hpid (PostEvent.returned.inj heq).1.symm

theorem Pends.step [DecidableEq χ] (h : Pends pid trace k) {op : PostOp χ φ} {event : PostEvent}
    (hspares : Spares pid k op) (hexec : (postMachine l).exec k op = some (next, event)) :
    Pends pid (trace ++ [(op, event)]) next := by
  cases op with
  | kill target signum =>
    obtain ⟨rfl, rfl⟩ := Prod.mk.inj (Option.some.inj hexec)
    exact h.sysKill hspares
  | trapReturn =>
    obtain ⟨⟨p, delivered⟩, hhandle, heq⟩ := Option.map_eq_some_iff.mp hexec
    obtain ⟨rfl, rfl⟩ := Prod.mk.inj heq
    exact h.trapReturn hhandle
  | other next =>
    obtain ⟨rfl, rfl⟩ := Prod.mk.inj (Option.some.inj hexec)
    exact h.of_unchanged rfl (by simp) (by simp)

theorem Pends.run [DecidableEq χ] {first last : SigKernel χ φ} (hnone : first.pending pid = 0)
    (hrun : (postMachine l).Run (Spares pid) first trace last) : Pends pid trace last := by
  induction hrun with
  | start =>
    refine ⟨fun signum _ _ => ?_, by rw [hnone]; rfl, by rw [hnone]; rfl⟩
    rw [hnone]
    refine iff_of_false ?_ not_since_nil
    simp
  | extend prior hspares hexec ih => exact ih.step hspares hexec

/-- Process `pid` returned to user mode and processed the lowest pending signal `signum` and no
other.  A handler is entered by one change of the frame. -/
structure Processed (k : SigKernel χ φ) (pid signum : ℕ) (delivered : Option Delivered)
    (next : SigKernel χ φ) : Prop where
  pending : (k.pending pid).getLsbD signum = true
  lowest : ∀ i < signum, (k.pending pid).getLsbD i = false
  others : ∀ i < 32, (next.pending pid).getLsbD i =
    ((k.pending pid).getLsbD i && decide (i ≠ signum))
  ignored : saHandler ((k.sig pid).sigactions signum) = 0 →
    delivered = none ∧ next.tf pid = k.tf pid
  redirected : saHandler ((k.sig pid).sigactions signum) ≠ 0 →
    delivered = some ⟨(k.tf pid).esp, (k.tf pid).eip, entryEsp (k.tf pid).esp⟩ ∧
    next.tf pid = { k.tf pid with
      esp := entryEsp (k.tf pid).esp, eip := saHandler ((k.sig pid).sigactions signum) }

theorem exec_trapReturn [DecidableEq χ]
    (hhandle : handlePendingSignals l k.sched.curid (k.proc k.sched.curid) = some (p, delivered)) :
    (postMachine l).exec k .trapReturn = some (k.setProc k.sched.curid p,
      .returned k.sched.curid (firstPending (k.pending k.sched.curid)) delivered) := by
  simp only [postMachine, exec, hhandle, Option.map_some]

theorem Pends.processed [DecidableEq χ] (h : Pends pid trace k) (hcur : k.sched.curid = pid)
    (hsome : k.pending pid ≠ 0) : ∃ signum delivered next, (postMachine l).exec k .trapReturn =
      some (next, .returned pid (some signum) delivered) ∧
      Processed k pid signum delivered next := by
  subst hcur
  cases hfirst : firstPending (k.pending k.sched.curid) with
  | none => exact absurd (eq_zero_of_firstPending hfirst h.zero) hsome
  | some signum =>
    obtain ⟨hone, hlt, hbit, hlower⟩ := firstPending_eq_some hfirst
    have hkill : signum ≠ sigkill := by
      rintro rfl
      exact absurd (hbit.symm.trans h.kill) (by decide)
    obtain ⟨p, delivered, hhandle, hpending, hignored, hredirected⟩ :=
      exists_handled l k.sched.curid (k.proc k.sched.curid) hfirst hkill
    have hexec := exec_trapReturn hhandle
    rw [hfirst] at hexec
    refine ⟨signum, delivered, _, hexec, hbit, fun i hi => ?_, fun i hi => ?_, fun hnone => ?_,
      fun hhandler => ?_⟩
    · obtain rfl | hpos := Nat.eq_zero_or_pos i
      · exact h.zero
      · exact hlower i hi hpos
    · rw [pending_setProc_self, hpending]
      exact getLsbD_clear _ hi
    · obtain ⟨hdelivered, htf⟩ := hignored hnone
      exact ⟨hdelivered, (update_self _ _ _).trans htf⟩
    · obtain ⟨hdelivered, htf⟩ := hredirected hhandler
      exact ⟨hdelivered, (update_self _ _ _).trans htf⟩

end Step

/-- **Signals are neither lost nor duplicated.** After every run in which a process is not
killed, a signal is pending exactly if it was posted since it was last processed, and neither
the bit 0 nor that of `SIGKILL` is set.  A return to user mode processes the lowest pending
signal, leaves the others, and redirects the frame once if there is a handler. -/
theorem signals_neither_lost_nor_duplicated [DecidableEq χ] [DecidableEq φ] (l : SigLayout φ)
    {pid : ℕ} {first last : SigKernel χ φ} {trace : List (PostOp χ φ × PostEvent)}
    (hnone : first.pending pid = 0) (hrun : (postMachine l).Run (Spares pid) first trace last) :
    (∀ signum, 1 ≤ signum → signum < 32 →
      ((last.pending pid).getLsbD signum = true ↔ Posted pid signum trace)) ∧
    ((last.pending pid).getLsbD 0 = false ∧ (last.pending pid).getLsbD sigkill = false) ∧
    (∀ signum : ℕ, 1 ≤ signum → signum < 32 → signum ≠ sigkill → pid < numIds →
      last.sched.state pid ≠ .dead →
      ∃ next, (postMachine l).exec last (.kill pid signum) = some (next, .errno .succ)) ∧
    (last.sched.curid = pid →
      (last.pending pid = 0 → ∃ next, (postMachine l).exec last .trapReturn =
        some (next, .returned pid none none) ∧ next.pending pid = 0 ∧
        next.tf pid = last.tf pid) ∧
      (last.pending pid ≠ 0 → ∃ signum delivered next, (postMachine l).exec last .trapReturn =
        some (next, .returned pid (some signum) delivered) ∧
        Processed last pid signum delivered next)) := by
  have h := Pends.run hnone hrun
  refine ⟨h.bit_iff, ⟨h.zero, h.kill⟩, ?_, fun hcur => ⟨fun hzero => ?_, h.processed hcur⟩⟩
  · intro signum hone hlt hkill hpid hlive
    have hsuccess : (last.sched.sysKill pid signum).1 = .succ := by
      have htarget : last.sched.KillTarget pid := ⟨by omega, by omega, hlive⟩
      have hnsig : Thread.nsig = 32 := rfl
      have hnumber : (signum : ℤ) ≠ Thread.sigkill := fun heq => hkill (by
        unfold Thread.sigkill at heq
        unfold sigkill
        omega)
      rw [Sched.sysKill, if_neg (by omega), if_neg (not_not.mpr htarget), if_neg hnumber]
    exact ⟨_, by rw [← hsuccess]; rfl⟩
  · subst hcur
    have hfirst : firstPending (last.pending last.sched.curid) = none := by
      rw [hzero]
      decide
    have hhandle : handlePendingSignals l last.sched.curid (last.proc last.sched.curid) =
        some (last.proc last.sched.curid, none) := handlePendingSignals_of_none hfirst
    have hexec := exec_trapReturn hhandle
    rw [hfirst] at hexec
    refine ⟨_, hexec, (pending_setProc_self _ _ _).trans hzero, ?_⟩
    exact update_self _ _ _

def handlingKernel : SigKernel Unit (ℕ × ℕ) where
  sched := .threadInit
  mem := (handledProc 0 0).mem
  sig _ := (handledProc 0 0).sig
  tf _ := (handledProc 0 0).tf

def signalled (k : SigKernel Unit (ℕ × ℕ)) (signum : ℤ) : SigKernel Unit (ℕ × ℕ) :=
  { k with sched := (k.sched.sysKill 0 signum).2 }

theorem signals_neither_lost_nor_duplicated_of_two :
    ∃ k next d, (postMachine plainLayout).Run (Spares 0) handlingKernel
        [(.kill 0 3, .errno .succ), (.kill 0 2, .errno .succ)] k ∧
      (postMachine plainLayout).exec k .trapReturn = some (next, .returned 0 (some 2) (some d)) ∧
      (next.pending 0).getLsbD 3 = true := by
  have hspares : ∀ k (signum : ℤ), signum ≠ 9 →
      Spares 0 k (.kill 0 signum : PostOp Unit (ℕ × ℕ)) := by
    rintro k signum hne heq
    exact hne (PostOp.kill.inj heq).2
  have hthree : (postMachine plainLayout).exec handlingKernel (.kill 0 3) =
      some (signalled handlingKernel 3, .errno .succ) := rfl
  have htwo : (postMachine plainLayout).exec (signalled handlingKernel 3) (.kill 0 2) =
      some (signalled (signalled handlingKernel 3) 2, .errno .succ) := rfl
  have hrun := (Machine.Run.single (hspares _ 3 (by decide)) hthree).extend
    (hspares _ 2 (by decide)) htwo
  have hpending : (signalled (signalled handlingKernel 3) 2).pending 0 = 12 := by decide +kernel
  obtain ⟨-, -, -, hreturn⟩ := signals_neither_lost_nor_duplicated plainLayout (by decide) hrun
  obtain ⟨signum, delivered, next, hexec, hprocessed⟩ :=
    (hreturn (by decide +kernel)).2 (by rw [hpending]; decide)
  obtain rfl : signum = 2 := by
    have hbit := hprocessed.pending
    have hlowest := hprocessed.lowest
    rw [hpending] at hbit hlowest
    have hle : ¬ 2 < signum := fun hlt => absurd (hlowest 2 hlt) (by decide)
    have hzero : signum ≠ 0 := by
      rintro rfl
      exact absurd hbit (by decide)
    have hone : signum ≠ 1 := by
      rintro rfl
      exact absurd hbit (by decide)
    omega
  obtain ⟨rfl, -⟩ := hprocessed.redirected (by decide +kernel)
  refine ⟨_, next, _, hrun, hexec, ?_⟩
  rw [hprocessed.others 3 (by decide), hpending]
  decide

end SigKernel

end MCertikos.Trap
