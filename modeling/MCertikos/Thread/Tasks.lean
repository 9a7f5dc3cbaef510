/-
# Kernel threads that run resumable programs

A subsystem whose calls are resumable programs is a monitor: the path of a call is its program up
to the first action that has to wait, and the continuation is the rest.
-/

import MCertikos.Math.Threads
import MCertikos.Thread.KernelInv

namespace MCertikos.Thread

open Math Function

universe u

variable {I : Interface.{u}} {ω ι β σ χ η : Type u}

def pathOf (args : ω) : Progress I σ χ η β → Option (Path χ (ω × Task I β) β σ)
  | .returned s wakes value => some ⟨s, wakes, .ret value⟩
  | .blocked s wakes chan rest => some ⟨s, wakes, .block chan (args, rest)⟩
  | .halted _ => none

def taskMonitor (sys : System I ω ι β σ χ η) : Monitor χ (ω × Task I β) ω ι β σ where
  call pid args s := pathOf args ((sys.program args).advance sys.act pid s [])
  resume pid cont s := pathOf cont.1 (cont.2.advance sys.act pid s [])
  intr irq s := some (sys.intr irq s)

def Kernel.threads (k : Kernel χ (ω × Task I β) σ) : Threads I ω β σ := ⟨k.cont, k.shared⟩

namespace Kernel

variable [DecidableEq χ] {k next : Kernel χ (ω × Task I β) σ} {op : Op ω ι} {out : Output β}

/-- The guard that admits every operation but giving a new thread the index of one that died
in the middle of a system call. -/
def FreshSpawn (k : Kernel χ (ω × Task I β) σ) : Op ω ι → Prop
  | .spawn pid => k.cont pid = none
  | _ => True

theorem leaves_of_finish {args : ω} {progress : Progress I σ χ η β}
    {path : Path χ (ω × Task I β) β σ} (hpath : pathOf args progress = some path)
    (hfinish : k.finish path = some (next, out)) :
    ∃ rest, System.leaves args progress = some (next.shared, rest) ∧
      next.cont = update k.cont k.sched.curid rest := by
  cases progress with
  | returned s wakes value =>
    cases hpath
    obtain ⟨value, -, -, rfl⟩ | ⟨chan, cont, sched, hstop, -⟩ := finish_cases hfinish
    · exact ⟨none, rfl, rfl⟩
    · cases hstop
  | blocked s wakes chan rest =>
    cases hpath
    obtain ⟨value, hstop, -⟩ | ⟨chan, cont, sched, hstop, -, -, rfl⟩ := finish_cases hfinish
    · cases hstop
    · cases hstop
      exact ⟨some (args, rest), rfl, rfl⟩
  | halted reason => cases hpath

end Kernel

open Kernel

variable [DecidableEq χ] {sys : System I ω ι β σ χ η}
  {k next : Kernel χ (ω × Task I β) σ} {op : Op ω ι} {out : Output β}

/-- **What the kernel does is an interleaving of the programs.** An operation is a run of the
thread that has the CPU. -/
theorem threads_step (hop : k.FreshSpawn op) (hstep : (taskMonitor sys).Step k op next out) :
    ∃ trace, sys.machine.Run (System.By k.sched.curid) k.threads trace next.threads := by
  cases hstep with
  | @spawn pid user hone hlt hdead =>
    have hcont : update k.cont pid none = k.cont := by
      rw [update_eq_self_iff]
      exact hop.symm
    rw [Kernel.threads, Kernel.threads, hcont]
    exact ⟨[], .start⟩
  | handoff => exact ⟨[], .start⟩
  | yield => exact ⟨[], .start⟩
  | @call args path _ _ user hpath hfinish =>
    obtain ⟨rest, hleaves, hcont⟩ := leaves_of_finish hpath hfinish
    have hstart : sys.machine.Run (System.By k.sched.curid) k.threads
        [(.start k.sched.curid args, none)]
        ⟨update k.cont k.sched.curid (some (args, sys.program args)), k.shared⟩ := by
      refine .single rfl ?_
      have hnone : k.threads.running k.sched.curid = none := user
      simp only [System.machine, System.exec, hnone]
      rfl
    obtain ⟨trace, hrun⟩ := System.run_of_advance
      (k := ⟨update k.cont k.sched.curid (some (args, sys.program args)), k.shared⟩)
      (update_self ..) hleaves
    rw [update_idem, ← hcont] at hrun
    exact ⟨_, hstart.trans hrun⟩
  | @resume cont path _ _ hcont hpath hfinish =>
    obtain ⟨rest, hleaves, hnext⟩ := leaves_of_finish hpath hfinish
    obtain ⟨trace, hrun⟩ := System.run_of_advance (k := k.threads) hcont hleaves
    refine ⟨trace, ?_⟩
    unfold Kernel.threads
    rw [hnext]
    exact hrun
  | @intr irq shared wakes user hintr =>
    refine ⟨[(.intr irq, none)], .single trivial ?_⟩
    simp only [taskMonitor, Option.some.injEq] at hintr
    simp only [System.machine, System.exec, Kernel.threads, hintr]
  | kill => exact ⟨[], .start⟩
  | terminate => exact ⟨[], .start⟩

theorem threads_of_run {guard : Kernel χ (ω × Task I β) σ → Op ω ι → Prop} {s : σ}
    {trace : List (Op ω ι × Output β)}
    (run : (taskMonitor sys).machine.Run guard (Kernel.boot s) trace k)
    (hguard : ∀ k op, guard k op → k.FreshSpawn op) :
    ∃ trace', sys.machine.Run Machine.anyStep (Threads.boot s) trace' k.threads := by
  apply run.invariant
  · exact ⟨[], .start⟩
  · rintro k next op out ⟨past, hpast⟩ hop hexec
    obtain ⟨trace', hstep⟩ := threads_step (hguard k op hop) (Monitor.step_of_exec hexec)
    exact ⟨_, hpast.trans (hstep.weaken fun _ _ _ => trivial)⟩

end MCertikos.Thread
