/-
# The tick counter and preemption

`timer_intr_handler` calls `sched_update` before `waitobj_on_timer_irq`.
-/

import MCertikos.Sync.Timer

namespace MCertikos.Sync

open Math Thread

def tickMs : BitVec 32 := 1

def schedSlice : BitVec 32 := 5

/-- The kernel, `sched_ticks`, and the threads switched away from inside
`timer_intr_handler`. -/
structure TickKernel where
  kernel : WaitKernel
  schedTicks : BitVec 32
  inHandler : Finset ℕ

inductive TickOp
  /-- Anything but a timer interrupt. -/
  | kernel (op : WaitOp)
  /-- A timer interrupt, up to the end of its handler or the switch in `sched_update`. -/
  | timerIrq
  /-- The rest of the handler of a thread that is scheduled again. -/
  | finishIrq

namespace TickKernel

def boot : TickKernel := ⟨Kernel.boot Pools.waitobjInit, 0, ∅⟩

def UserRunning (k : TickKernel) : Prop :=
  k.kernel.InUser ∧ k.kernel.sched.curid ∉ k.inHandler

instance (k : TickKernel) : Decidable k.UserRunning := by
  unfold UserRunning
  infer_instance

def schedUpdate (schedTicks : BitVec 32) : BitVec 32 × Bool :=
  if schedSlice < schedTicks + tickMs then (0, true) else (schedTicks + tickMs, false)

def onTimerIrq (k : WaitKernel) : WaitKernel :=
  ⟨k.sched.wakeAll k.shared.waitobjOnTimerIrq.2, k.cont, k.shared.waitobjOnTimerIrq.1⟩

theorem onTimerIrq_shared (k : WaitKernel) :
    (onTimerIrq k).shared = k.shared.waitobjOnTimerIrq.1 := by
  simp only [onTimerIrq]

def handlersAfter (handlers : Finset ℕ) : WaitOp → Finset ℕ
  | .spawn pid => handlers.erase pid
  | _ => handlers

def exec (k : TickKernel) : TickOp → Option (TickKernel × Output WaitRet)
  | .kernel op =>
    if isTimerIrq op = false ∧ k.kernel.sched.curid ∉ k.inHandler then
      (waitMonitor.exec k.kernel op).map fun (kernel, out) =>
        (⟨kernel, k.schedTicks, handlersAfter k.inHandler op⟩, out)
    else none
  | .timerIrq =>
    if k.UserRunning then
      if (schedUpdate k.schedTicks).2 then
        some (⟨{ k.kernel with sched := k.kernel.sched.threadYield },
          (schedUpdate k.schedTicks).1, insert k.kernel.sched.curid k.inHandler⟩, .silent)
      else
        some (⟨onTimerIrq k.kernel, (schedUpdate k.schedTicks).1, k.inHandler⟩, .silent)
    else none
  | .finishIrq =>
    if k.kernel.sched.curid ∈ k.inHandler then
      some (⟨onTimerIrq k.kernel, k.schedTicks, k.inHandler.erase k.kernel.sched.curid⟩, .silent)
    else none

def machine : Machine TickKernel TickOp (Output WaitRet) := ⟨exec⟩

def irqCount (trace : List (TickOp × Output WaitRet)) : ℕ :=
  trace.countP fun event => match event.1 with
    | .timerIrq => true
    | _ => false

/-- The guard that admits every step but the reuse of the index of a thread that was
killed inside the handler. -/
def HandlersFinish (k : TickKernel) : TickOp → Prop
  | .kernel (.spawn pid) => pid ∉ k.inHandler
  | _ => True

instance (k : TickKernel) (op : TickOp) : Decidable (k.HandlersFinish op) := by
  unfold HandlersFinish
  split <;> infer_instance

structure Lags (irqs : ℕ) (k : TickKernel) : Prop where
  represents : ∃ lists, k.kernel.shared.Represents lists
  ticks : k.kernel.shared.ticks + BitVec.ofNat 32 k.inHandler.card = BitVec.ofNat 32 irqs

theorem lags_boot : Lags 0 boot := ⟨⟨_, Pools.represents_waitobjInit⟩, rfl⟩

namespace Lags

variable {irqs : ℕ} {k next : TickKernel} {out : Output WaitRet}

theorem onTimerIrq (hlags : Lags irqs k) :
    (∃ lists, (TickKernel.onTimerIrq k.kernel).shared.Represents lists) ∧
      (TickKernel.onTimerIrq k.kernel).shared.ticks = k.kernel.shared.ticks + 1 := by
  obtain ⟨lists, hrep⟩ := hlags.represents
  have hintr : waitMonitor.intr .timer k.kernel.shared =
      some (k.kernel.shared.waitobjOnTimerIrq.1, k.kernel.shared.waitobjOnTimerIrq.2) := by
    simp only [waitMonitor, Prod.mk.eta]
  have hstep := Pools.poolStep_of_exec hrep (Monitor.dataExec_intr hintr)
  obtain ⟨lists', hrep', -⟩ := hrep.step hstep
  rw [onTimerIrq_shared]
  exact ⟨⟨lists', hrep'⟩, hstep.ticks_timer⟩

theorem kernel (hlags : Lags irqs k) {op : WaitOp} (hop : k.HandlersFinish (.kernel op))
    (hexec : k.exec (.kernel op) = some (next, out)) : Lags irqs next := by
  obtain ⟨⟨hirq, -⟩, hmap⟩ := Option.ite_none_right_eq_some.mp hexec
  obtain ⟨⟨kernel, out'⟩, hkernel, heq⟩ := Option.map_eq_some_iff.mp hmap
  obtain ⟨rfl, -⟩ := Prod.mk.inj heq
  obtain ⟨lists, hrep⟩ := hlags.represents
  have hstep := Monitor.step_of_exec hkernel
  have hticks : kernel.shared.ticks = k.kernel.shared.ticks := by
    simpa [hirq] using ticks_step hrep hstep
  have hhandlers : handlersAfter k.inHandler op = k.inHandler := by
    cases op with
    | spawn pid => exact Finset.erase_eq_of_notMem hop
    | handoff | yield | call | resume | intr | kill | terminate => rfl
  refine ⟨represents_step hrep hstep, ?_⟩
  rw [hticks, hhandlers]
  exact hlags.ticks

theorem timerIrq (hlags : Lags irqs k) (hexec : k.exec .timerIrq = some (next, out)) :
    Lags (irqs + 1) next := by
  obtain ⟨huser, hexec⟩ := Option.ite_none_right_eq_some.mp hexec
  have hone : BitVec.ofNat 32 (irqs + 1) = BitVec.ofNat 32 irqs + 1 := BitVec.ofNat_add ..
  split at hexec
  · cases hexec
    refine ⟨hlags.represents, ?_⟩
    rw [Finset.card_insert_of_notMem huser.2, BitVec.ofNat_add, ← BitVec.add_assoc, hlags.ticks,
      hone]
    rfl
  · obtain ⟨rfl, -⟩ := Prod.mk.inj (Option.some.inj hexec)
    obtain ⟨hrep, hticks⟩ := hlags.onTimerIrq
    refine ⟨hrep, ?_⟩
    rw [hticks, hone, ← hlags.ticks]
    ac_rfl

theorem finishIrq (hlags : Lags irqs k) (hexec : k.exec .finishIrq = some (next, out)) :
    Lags irqs next := by
  obtain ⟨hmem, hexec⟩ := Option.ite_none_right_eq_some.mp hexec
  obtain ⟨rfl, -⟩ := Prod.mk.inj (Option.some.inj hexec)
  obtain ⟨hrep, hticks⟩ := hlags.onTimerIrq
  refine ⟨hrep, ?_⟩
  have hcard : k.inHandler.card = (k.inHandler.erase k.kernel.sched.curid).card + 1 :=
    (Finset.card_erase_add_one hmem).symm
  rw [hticks, ← hlags.ticks, hcard, BitVec.ofNat_add]
  ac_rfl

end Lags

theorem irqCount_append (past : List (TickOp × Output WaitRet)) (op : TickOp)
    (out : Output WaitRet) : irqCount (past ++ [(op, out)]) = irqCount past +
      irqCount [(op, out)] := List.countP_append

theorem lags_of_run {trace : List (TickOp × Output WaitRet)} {k : TickKernel}
    (run : machine.Run HandlersFinish boot trace k) : Lags (irqCount trace) k := by
  induction run with
  | start => exact lags_boot
  | @extend middle last past op out prior hop hexec ih =>
    rw [irqCount_append]
    cases op with
    | kernel op => exact ih.kernel hop hexec
    | timerIrq => exact ih.timerIrq hexec
    | finishIrq => exact ih.finishIrq hexec

/-- **The tick counter counts timer interrupts, but for those under way.** The counter and the
threads switched away from inside the handler add up to the interrupts modulo `2 ^ 32`; so where
user code runs and no thread stands in the handler, the counter is exact. -/
theorem ticks_eq_irqCount {trace : List (TickOp × Output WaitRet)} {k : TickKernel}
    (run : machine.Run HandlersFinish boot trace k) :
    k.kernel.shared.ticks + BitVec.ofNat 32 k.inHandler.card = BitVec.ofNat 32 (irqCount trace) ∧
      (k.UserRunning → k.inHandler = ∅ →
        k.kernel.shared.ticks = BitVec.ofNat 32 (irqCount trace)) := by
  have hlags := lags_of_run run
  refine ⟨hlags.ticks, fun _ hnone => ?_⟩
  simpa [hnone] using hlags.ticks

def sixInterrupts : List TickOp :=
  [.kernel (.spawn 1), .kernel (.spawn 2), .kernel (.handoff 1), .timerIrq, .timerIrq, .timerIrq,
    .timerIrq, .timerIrq, .timerIrq]

def sixInterruptsAndYield : List TickOp := sixInterrupts ++ [.kernel .yield, .finishIrq]

theorem ticks_eq_irqCount_of_preemption :
    ∃ (k : TickKernel) (trace : List (TickOp × Output WaitRet)),
      machine.Run HandlersFinish boot trace k ∧ irqCount trace = 6 ∧ k.UserRunning ∧
      k.kernel.shared.ticks = BitVec.ofNat 32 (irqCount trace) := by
  have heval : ∃ x ∈ (machine.guarded HandlersFinish).runAll boot sixInterruptsAndYield,
      irqCount (sixInterruptsAndYield.zip x.2) = 6 ∧ x.1.UserRunning ∧ x.1.inHandler = ∅ := by
    decide +kernel
  obtain ⟨⟨k, outs⟩, hrunAll, hcount, huser, hnone⟩ := heval
  have hrun : machine.Run HandlersFinish boot _ k := Machine.run_of_guarded hrunAll
  exact ⟨k, _, hrun, hcount, huser, (ticks_eq_irqCount hrun).2 huser hnone⟩

/-- **A tick is postponed.** After the sixth interrupt the second process runs user code,
and the counter is five. -/
theorem tick_postponed_past_other_process :
    ∃ (trace : List (TickOp × Output WaitRet)) (k : TickKernel),
      machine.Run Machine.anyStep boot trace k ∧ k.UserRunning ∧
      k.kernel.sched.curid = 2 ∧ irqCount trace = 6 ∧ k.kernel.shared.ticks = 5 := by
  have heval : ∃ x ∈ machine.runAll boot sixInterrupts,
      x.1.UserRunning ∧ x.1.kernel.sched.curid = 2 ∧ irqCount (sixInterrupts.zip x.2) = 6 ∧
      x.1.kernel.shared.ticks = 5 := by
    decide +kernel
  obtain ⟨⟨k, outs⟩, hrunAll, hstate⟩ := heval
  exact ⟨_, k, Machine.run_of_runAll (fun _ _ _ => trivial) hrunAll, hstate⟩

end TickKernel

end MCertikos.Sync
