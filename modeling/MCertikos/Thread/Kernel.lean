/-
# The kernel as a machine of atomic paths

One CPU runs with interrupts off in kernel code, so a kernel path is atomic between two context
switches.
-/

import MCertikos.Math.Run
import MCertikos.Thread.SchedInv

namespace MCertikos.Thread

open Math Function

/-- How an atomic path ends: back in user mode with a value, or asleep on a
channel with the rest of the system call still to run. -/
inductive Stop (χ κ ρ : Type*)
  | ret (value : ρ)
  | block (chan : χ) (cont : κ)

structure Path (χ κ ρ σ : Type*) where
  shared : σ
  /-- The channels woken, in program order. -/
  wakes : List χ
  stop : Stop χ κ ρ

/-- The blocking system calls and the interrupt handlers of a subsystem.  A path
that panics or never ends has no value. -/
structure Monitor (χ κ ω ι ρ σ : Type*) where
  /-- The path from the entry of a system call. -/
  call : ℕ → ω → σ → Option (Path χ κ ρ σ)
  /-- The path from where a sleeper resumes. -/
  resume : ℕ → κ → σ → Option (Path χ κ ρ σ)
  /-- An interrupt handler: it wakes channels and never sleeps. -/
  intr : ι → σ → Option (σ × List χ)

/-- The scheduler, the continuation of every thread that slept inside a system
call, and the data of the subsystem. -/
structure Kernel (χ κ σ : Type*) where
  sched : Sched χ
  cont : ℕ → Option κ
  shared : σ

inductive Op (ω ι : Type*)
  | spawn (pid : ℕ)
  | handoff (pid : ℕ)
  | yield
  | call (args : ω)
  | resume
  | intr (irq : ι)
  | kill (pid signum : ℤ)
  | terminate

inductive Output (ρ : Type*)
  | silent
  | ret (pid : ℕ) (value : ρ)
  | errno (error : Errno)
  deriving DecidableEq, Repr

def Sched.wakeAll {χ : Type*} [DecidableEq χ] (s : Sched χ) (chans : List χ) : Sched χ :=
  chans.foldl Sched.threadWakeup s

namespace Kernel

variable {χ κ ω ι ρ σ : Type*}

def boot (shared : σ) : Kernel χ κ σ := ⟨.threadInit, fun _ => none, shared⟩

def InUser (k : Kernel χ κ σ) : Prop := k.cont k.sched.curid = none

instance (k : Kernel χ κ σ) : Decidable k.InUser :=
  decidable_of_iff ((k.cont k.sched.curid).isNone) Option.isNone_iff_eq_none

variable [DecidableEq χ]

def finish (k : Kernel χ κ σ) (path : Path χ κ ρ σ) : Option (Kernel χ κ σ × Output ρ) :=
  let pid := k.sched.curid
  let sched := k.sched.wakeAll path.wakes
  match path.stop with
  | .ret value =>
    some (⟨sched, update k.cont pid none, path.shared⟩, .ret pid value)
  | .block chan cont =>
    (sched.threadSleep chan).map fun sched =>
      (⟨sched, update k.cont pid (some cont), path.shared⟩, .silent)

end Kernel

namespace Monitor

open Kernel

variable {χ κ ω ι ρ σ : Type*} [DecidableEq χ] (M : Monitor χ κ ω ι ρ σ)

def exec (k : Kernel χ κ σ) : Op ω ι → Option (Kernel χ κ σ × Output ρ)
  | .spawn pid =>
    if k.InUser ∧ 1 ≤ pid ∧ pid < numIds ∧ k.sched.state pid = .dead then
      some (⟨k.sched.threadSpawn pid, update k.cont pid none, k.shared⟩, .silent)
    else none
  | .handoff pid =>
    if k.InUser ∧ k.sched.curid = 0 ∧ 1 ≤ pid ∧ pid < numIds ∧
        k.sched.state pid = .ready then
      some (⟨k.sched.kernMainHandoff pid, k.cont, k.shared⟩, .silent)
    else none
  | .yield =>
    if k.InUser then some (⟨k.sched.threadYield, k.cont, k.shared⟩, .silent) else none
  | .call args =>
    if k.InUser then (M.call k.sched.curid args k.shared).bind k.finish else none
  | .resume =>
    match k.cont k.sched.curid with
    | none => none
    | some cont =>
      (M.resume k.sched.curid cont k.shared).bind
        (Kernel.mk k.sched.threadSleepReturn k.cont k.shared).finish
  | .intr irq =>
    if k.InUser then
      (M.intr irq k.shared).map fun (shared, wakes) =>
        (⟨k.sched.wakeAll wakes, k.cont, shared⟩, .silent)
    else none
  | .kill pid signum =>
    if k.InUser then
      some (⟨(k.sched.sysKill pid signum).2, k.cont, k.shared⟩,
        .errno (k.sched.sysKill pid signum).1)
    else none
  | .terminate =>
    if k.InUser then
      k.sched.terminateCurrent.map fun sched => (⟨sched, k.cont, k.shared⟩, .silent)
    else none

def machine : Machine (Kernel χ κ σ) (Op ω ι) (Output ρ) := ⟨M.exec⟩

inductive Step (k : Kernel χ κ σ) : Op ω ι → Kernel χ κ σ → Output ρ → Prop
  | spawn {pid : ℕ} (user : k.InUser) (hone : 1 ≤ pid) (hlt : pid < numIds)
      (hdead : k.sched.state pid = .dead) :
      Step k (.spawn pid)
        ⟨k.sched.threadSpawn pid, update k.cont pid none, k.shared⟩ .silent
  | handoff {pid : ℕ} (user : k.InUser) (hcur : k.sched.curid = 0) (hone : 1 ≤ pid)
      (hlt : pid < numIds) (hready : k.sched.state pid = .ready) :
      Step k (.handoff pid) ⟨k.sched.kernMainHandoff pid, k.cont, k.shared⟩ .silent
  | yield (user : k.InUser) :
      Step k .yield ⟨k.sched.threadYield, k.cont, k.shared⟩ .silent
  | call {args : ω} {path : Path χ κ ρ σ} {next : Kernel χ κ σ} {out : Output ρ}
      (user : k.InUser) (hpath : M.call k.sched.curid args k.shared = some path)
      (hfinish : k.finish path = some (next, out)) : Step k (.call args) next out
  | resume {cont : κ} {path : Path χ κ ρ σ} {next : Kernel χ κ σ} {out : Output ρ}
      (hcont : k.cont k.sched.curid = some cont)
      (hpath : M.resume k.sched.curid cont k.shared = some path)
      (hfinish : (Kernel.mk k.sched.threadSleepReturn k.cont k.shared).finish path =
        some (next, out)) : Step k .resume next out
  | intr {irq : ι} {shared : σ} {wakes : List χ} (user : k.InUser)
      (hintr : M.intr irq k.shared = some (shared, wakes)) :
      Step k (.intr irq) ⟨k.sched.wakeAll wakes, k.cont, shared⟩ .silent
  | kill {pid signum : ℤ} (user : k.InUser) :
      Step k (.kill pid signum) ⟨(k.sched.sysKill pid signum).2, k.cont, k.shared⟩
        (.errno (k.sched.sysKill pid signum).1)
  | terminate {sched : Sched χ} (user : k.InUser)
      (hsched : k.sched.terminateCurrent = some sched) :
      Step k .terminate ⟨sched, k.cont, k.shared⟩ .silent

variable {M}

theorem step_of_exec {k next : Kernel χ κ σ} {op : Op ω ι} {out : Output ρ}
    (hexec : M.exec k op = some (next, out)) : M.Step k op next out := by
  cases op with
  | spawn pid =>
    simp only [exec, Option.ite_none_right_eq_some, Option.some.injEq, Prod.mk.injEq] at hexec
    obtain ⟨⟨user, hone, hlt, hdead⟩, rfl, rfl⟩ := hexec
    exact .spawn user hone hlt hdead
  | handoff pid =>
    simp only [exec, Option.ite_none_right_eq_some, Option.some.injEq, Prod.mk.injEq] at hexec
    obtain ⟨⟨user, hcur, hone, hlt, hready⟩, rfl, rfl⟩ := hexec
    exact .handoff user hcur hone hlt hready
  | yield =>
    simp only [exec, Option.ite_none_right_eq_some, Option.some.injEq, Prod.mk.injEq] at hexec
    obtain ⟨user, rfl, rfl⟩ := hexec
    exact .yield user
  | call args =>
    simp only [exec, Option.ite_none_right_eq_some, Option.bind_eq_some_iff] at hexec
    obtain ⟨user, path, hpath, hfinish⟩ := hexec
    exact .call user hpath hfinish
  | resume =>
    simp only [exec] at hexec
    split at hexec
    · cases hexec
    · next cont hcont =>
      obtain ⟨path, hpath, hfinish⟩ := Option.bind_eq_some_iff.mp hexec
      exact .resume hcont hpath hfinish
  | intr irq =>
    simp only [exec, Option.ite_none_right_eq_some, Option.map_eq_some_iff,
      Prod.mk.injEq] at hexec
    obtain ⟨user, ⟨shared, wakes⟩, hintr, rfl, rfl⟩ := hexec
    exact .intr user hintr
  | kill pid signum =>
    simp only [exec, Option.ite_none_right_eq_some, Option.some.injEq, Prod.mk.injEq] at hexec
    obtain ⟨user, rfl, rfl⟩ := hexec
    exact .kill user
  | terminate =>
    simp only [exec, Option.ite_none_right_eq_some, Option.map_eq_some_iff,
      Prod.mk.injEq] at hexec
    obtain ⟨user, sched, hsched, rfl, rfl⟩ := hexec
    exact .terminate user hsched

end Monitor

end MCertikos.Thread
