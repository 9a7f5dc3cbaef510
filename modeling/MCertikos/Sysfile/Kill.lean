/-
# Killing a process inside the file system

`sys_kill` with `SIGKILL` marks its target dead wherever it is.
-/

import MCertikos.Sysfile.Transactions
import MCertikos.Thread.Kill
import MCertikos.Thread.Tasks

namespace MCertikos.Sysfile

open Math FS Thread Thread.Kernel

abbrev FsKernel := Kernel Chan (Call × Code Reply) World

def fsMonitor : Monitor Chan (Call × Code Reply) Call Unit Reply World :=
  taskMonitor (system Call.code)

/-- A `SIGKILL` is safe for the scheduler and meets a process without locks; and the index of a
process that died in a call is not given out again. -/
def KillsUnlocked (k : FsKernel) : Op Call Unit → Prop
  | .kill pid signum => signum = sigkill → k.sched.KillTarget pid →
      k.sched.KillSafe pid ∧ (k.shared.proc pid.toNat).Unlocked
  | .spawn pid => k.cont pid = none
  | _ => True

instance (k : FsKernel) : (op : Op Call Unit) → Decidable (KillsUnlocked k op)
  | .kill _ _ => inferInstanceAs (Decidable (_ → _ → _))
  | .spawn pid => decidable_of_iff ((k.cont pid).isNone) Option.isNone_iff_eq_none
  | .handoff _ | .yield | .call _ | .resume | .intr _ | .terminate => isTrue trivial

instance (k : FsKernel) : (op : Op Call Unit) → Decidable (k.KillHarmless op)
  | .kill _ _ => inferInstanceAs (Decidable (_ → _ → _))
  | .spawn _ | .handoff _ | .yield | .call _ | .resume | .intr _ | .terminate => isTrue trivial

variable {op : Op Call Unit}

theorem KillsUnlocked.killHarmless (h : KillsUnlocked k op) : k.KillHarmless op := by
  cases op with
  | kill pid signum => exact fun hkill htarget => (h hkill htarget).1
  | _ => trivial

theorem KillsUnlocked.freshSpawn (h : KillsUnlocked k op) : k.FreshSpawn op := by
  cases op with
  | spawn pid => exact h
  | _ => trivial

theorem proc_of_run {pid p : ℕ} {trace : List (ThreadOp Call Unit × Option Reply)}
    {k next : Calls} (run : (system Call.code).machine.Run (System.By pid) k trace next)
    (hp : p ≠ pid) : next.state.proc p = k.state.proc p := by
  induction run with
  | start => rfl
  | extend prior hop hexec ih =>
    cases System.step_of_exec hexec with
    | start => exact ih
    | ret => exact ih
    | @act pid' c a rest w wakes r hrun hact =>
      obtain rfl : pid' = pid := hop
      obtain ⟨shared, -, rfl⟩ := effect_of_step hact
      simpa [hp] using ih
    | intr => exact ih

variable {disk : Disk} {trace : List (Op Call Unit × Output Reply)} {k next : FsKernel}

theorem orderly_of_kernelRun
    (run : fsMonitor.machine.Run KillsUnlocked (.boot (.boot disk)) trace k) :
    System.Orderly (fun c => (c.rules False).discipline) World.proc Proc.Idle Accounted
      k.threads := by
  obtain ⟨trace', hrun⟩ := threads_of_run run fun _ _ hop => hop.freshSpawn
  exact System.orderly_of_run (sound_calls False) hrun
    (fun _ op _ => by cases op <;> simp [System.Admitted]) (Accounted.boot disk)
    fun _ => Proc.idle_init

theorem unlocked_step {out : Output Reply} (hwf : k.WellFormed)
    (hidle : ∀ p, k.cont p = none → (k.shared.proc p).Idle)
    (hunlocked : ∀ p, k.sched.state p = .dead → (k.shared.proc p).Unlocked)
    (hop : KillsUnlocked k op) (hstep : fsMonitor.Step k op next out) (p : ℕ)
    (hdead : next.sched.state p = .dead) : (next.shared.proc p).Unlocked := by
  obtain ⟨trace, hrun⟩ := threads_step hop.freshSpawn hstep
  obtain hbefore | ⟨huser, hcur, rfl⟩ | ⟨pid, rfl, htarget, rfl⟩ :=
    Monitor.dies_cases hwf hstep hdead
  · -- A dead process does not run, so its record stays as it was.
    obtain ⟨q, hq⟩ := hwf
    have hproc : next.shared.proc p = k.shared.proc p :=
      proc_of_run hrun (hq.ne_of_dead hbefore (.inr rfl))
    rw [hproc]
    exact hunlocked p hbefore
  · cases hstep
    exact (hidle p (hcur ▸ huser)).toUnlocked
  · cases hstep
    exact (hop rfl htarget).2

/-- **The dead hold no lock.** In every state of every run of the kernel in which a `SIGKILL`
meets only processes without file-system locks, no dead process is in a transaction or has the
lock of an inode or a buffer. -/
theorem dead_unlocked (run : fsMonitor.machine.Run KillsUnlocked (.boot (.boot disk)) trace k)
    (p : ℕ) (hdead : k.sched.state p = .dead) : (k.shared.proc p).Unlocked := by
  induction run generalizing p with
  | start => exact Proc.idle_init.toUnlocked
  | extend prior hop hexec ih =>
    have hwf := Monitor.wellFormed_of_run (prior.weaken fun _ _ hop => hop.killHarmless)
    exact unlocked_step hwf (orderly_of_kernelRun prior).resting ih hop
      (Monitor.step_of_exec hexec) p hdead

theorem dead_unlocked_ready :
    ∃ (trace : List (Op Call Unit × Output Reply)) (k : FsKernel),
      fsMonitor.machine.Run KillsUnlocked (.boot (.boot mkfsDisk)) trace k ∧
      k.sched.state 3 = .dead ∧ (k.shared.proc 1).trans = true ∧
      (k.shared.proc 3).Unlocked := by
  have heval : ∃ x ∈ (fsMonitor.machine.guarded KillsUnlocked).runAll (.boot (.boot mkfsDisk))
      [.spawn 1, .spawn 2, .spawn 3, .handoff 1, .call (.mkdir dPath), .kill 3 sigkill],
      x.1.sched.state 3 = .dead ∧ (x.1.shared.proc 1).trans = true := by
    decide +kernel
  obtain ⟨⟨k, outs⟩, heval, hdead, htrans⟩ := heval
  have hrun := Machine.run_of_guarded heval
  exact ⟨_, k, hrun, hdead, htrans, dead_unlocked hrun 3 hdead⟩

/-- A process sleeps for the disk in the transaction of `sys_mkdir`, and another one kills it.
It is dead, and holds the log, the root directory and a buffer. -/
theorem sigkill_of_lock_holder :
    ∃ (trace : List (Op Call Unit × Output Reply)) (k : FsKernel),
      fsMonitor.machine.Run KillHarmless (.boot (.boot mkfsDisk)) trace k ∧
      k.sched.state 1 = .dead ∧ (k.shared.proc 1).trans = true ∧
      (k.shared.proc 1).inodes ≠ [] ∧ (k.shared.proc 1).bufs ≠ [] := by
  have heval : ∃ x ∈ (fsMonitor.machine.guarded KillHarmless).runAll (.boot (.boot mkfsDisk))
      ([.spawn 1, .spawn 2, .handoff 1, .call (.open [slash] 0)] ++
        (List.replicate 4 [.intr (), .yield, .resume]).flatten ++
        [.call (.mkdir dPath), .kill 1 sigkill]),
      x.1.sched.state 1 = .dead ∧ (x.1.shared.proc 1).trans = true ∧
        (x.1.shared.proc 1).inodes ≠ [] ∧ (x.1.shared.proc 1).bufs ≠ [] := by
    decide +kernel
  obtain ⟨⟨k, outs⟩, heval, hdead⟩ := heval
  exact ⟨_, k, Machine.run_of_guarded heval, hdead⟩

end MCertikos.Sysfile
