/-
# What SIGKILL removes

`sys_kill` with `SIGKILL` marks its target dead and unlinks it from the ready queue.
-/

import MCertikos.Thread.KernelInv

namespace MCertikos.Thread

open Math Function

variable {χ κ ω ι ρ σ : Type*} [DecidableEq χ]

namespace Sched

variable {s : Sched χ} {q : List ℕ} {p : ℕ}

theorem wakeAll_state_of_dead (hdead : s.state p = .dead) (chans : List χ) :
    (s.wakeAll chans).state p = .dead := by
  have hnot : ¬ s.WokenBy chans p := by
    rintro ⟨-, -, hsleep, -⟩
    rw [hdead] at hsleep
    cases hsleep
  rw [(s.wakeAll_fields chans p).1, if_neg hnot, hdead]

theorem postSignal_state_of_dead (hdead : s.state p = .dead) (pid : ℕ) (signum : ℤ) :
    (s.postSignal pid signum).state p = .dead := by
  obtain ⟨chans, heq⟩ := s.postSignal_eq_wakeAll pid signum
  rw [heq]
  exact wakeAll_state_of_dead ((s.tcbAddPendingSignal_fields pid signum).1 ▸ hdead) chans

theorem state_of_wakeAll_dead {chans : List χ} (hdead : (s.wakeAll chans).state p = .dead) :
    s.state p = .dead := by
  rw [(s.wakeAll_fields chans p).1] at hdead
  split_ifs at hdead
  exact hdead

theorem state_of_sysKill_dead {pid signum : ℤ} (hdead : (s.sysKill pid signum).2.state p = .dead) :
    s.state p = .dead ∨ signum = sigkill ∧ s.KillTarget pid ∧ p = pid.toNat := by
  unfold Sched.sysKill at hdead
  split_ifs at hdead with hsig htarget hkill
  · exact .inl hdead
  · by_cases heq : p = pid.toNat
    · exact .inr ⟨hkill, htarget, heq⟩
    · exact .inl (by simpa [killTarget, tcbSetPendingSignals, tcbSetState, heq] using hdead)
  · obtain ⟨chans, heq⟩ := s.postSignal_eq_wakeAll pid.toNat signum
    rw [heq] at hdead
    exact .inl ((s.tcbAddPendingSignal_fields _ signum).1 ▸ state_of_wakeAll_dead hdead)
  · exact .inl hdead

theorem sysKill_state_of_dead (hdead : s.state p = .dead) (pid signum : ℤ) :
    (s.sysKill pid signum).2.state p = .dead := by
  unfold Sched.sysKill
  split_ifs
  · exact hdead
  · by_cases heq : p = pid.toNat
    · simp [killTarget, tcbSetPendingSignals, tcbSetState, heq]
    · simpa [killTarget, tcbSetPendingSignals, tcbSetState, heq] using hdead
  · exact postSignal_state_of_dead hdead _ _
  · exact hdead

omit [DecidableEq χ] in
theorem WellFormed.ne_of_dead (hwf : s.WellFormed q) {p p' : ℕ} (hdead : s.state p = .dead)
    (hmem : p' ∈ q ∨ p' = s.curid) : p ≠ p' := by
  rintro rfl
  rcases hmem with hmem | rfl
  · rw [(hwf.mem_iff p (hwf.lt_of_mem p hmem)).mp hmem] at hdead
    cases hdead
  · rw [hwf.curid_run] at hdead
    cases hdead

omit [DecidableEq χ] in
theorem Switched.state_of_dead {t : Sched χ} {q' : List ℕ} {state : TState}
    (h : s.Switched q' state t) (hwf : s.WellFormed q) (hq' : ∀ p' ∈ q', p' ∈ q ∨ p' = s.curid)
    (hdead : s.state p = .dead) : t.state p = .dead := by
  have hnext : t.curid ∈ q' := h.queue ▸ List.mem_cons_self
  have hfirst := hwf.ne_of_dead hdead (hq' _ hnext)
  have hcur := hwf.ne_of_dead hdead (Or.inr rfl)
  simp [h.state, hfirst, hcur, hdead]

omit [DecidableEq χ] in
theorem QueueOk.threadYield_state (hq : s.QueueOk []) (hlt : s.curid < numIds) :
    s.threadYield.state s.curid = .run := by
  have hdequeue := (hq.makeReady hlt List.not_mem_nil).dequeue
  simp only [Sched.threadYield, hdequeue]
  simp [setCurid, tcbSetState]

end Sched

namespace Kernel

variable {path : Path χ κ ρ σ}

theorem finish_state_of_dead {k next : Kernel χ κ σ} {out : Output ρ} (hwf : k.WellFormed) {p : ℕ}
    (hdead : k.sched.state p = .dead) (hfinish : k.finish path = some (next, out)) :
    next.sched.state p = .dead := by
  obtain ⟨q, hq⟩ := hwf
  obtain ⟨q', hwake⟩ := hq.wakeAll path.wakes
  have hdead' := Sched.wakeAll_state_of_dead hdead path.wakes
  obtain ⟨value, -, -, rfl⟩ | ⟨chan, cont, sched, -, -, hsleep, rfl⟩ := finish_cases hfinish
  · exact hdead'
  · exact (hwake.threadSleep hsleep).state_of_dead hwake (fun _ hmem => .inl hmem) hdead'

theorem state_of_finish_dead {k next : Kernel χ κ σ} {out : Output ρ} (hwf : k.WellFormed) {p : ℕ}
    (hfinish : k.finish path = some (next, out)) (hdead : next.sched.state p = .dead) :
    k.sched.state p = .dead := by
  obtain ⟨q, hq⟩ := hwf
  obtain ⟨q', hwake⟩ := hq.wakeAll path.wakes
  obtain ⟨value, -, -, rfl⟩ | ⟨chan, cont, sched, -, -, hsleep, rfl⟩ := finish_cases hfinish
  · exact Sched.state_of_wakeAll_dead hdead
  · obtain ⟨-, hsame⟩ | ⟨-, hbefore⟩ := (hwake.threadSleep hsleep).cases hdead (by decide)
    · cases hsame
    · exact Sched.state_of_wakeAll_dead hbefore

/-- The guard of a continuation after the death of `p`: no unsafe `SIGKILL`, and
`kctx_new` does not hand the index out again. -/
def StaysDead (p : ℕ) (k : Kernel χ κ σ) (op : Op ω ι) : Prop :=
  k.KillHarmless op ∧ ∀ pid, op = .spawn pid → pid ≠ p

end Kernel

namespace Monitor

open Kernel

variable {M : Monitor χ κ ω ι ρ σ} {k next : Kernel χ κ σ}

theorem dead_step {op : Op ω ι} {out : Output ρ} {p : ℕ} (hwf : k.WellFormed)
    (hdead : k.sched.state p = .dead) (hop : k.StaysDead p op) (hstep : M.Step k op next out) :
    next.sched.state p = .dead := by
  obtain ⟨q, hq⟩ := id hwf
  cases hstep with
  | spawn user hone hlt hd =>
    have hne := hop.2 _ rfl
    simpa [Sched.threadSpawn, Sched.tcbSetState, Ne.symm hne] using hdead
  | handoff user hcur hone hlt hready =>
    have hne := hq.ne_of_dead hdead (Or.inl ((hq.mem_iff _ hlt).mpr hready))
    simpa [Sched.kernMainHandoff, Sched.setCurid, Sched.tcbSetState, hne] using hdead
  | yield user => exact hq.threadYield.state_of_dead hq (by simp) hdead
  | call user hpath hfinish => exact finish_state_of_dead hwf hdead hfinish
  | resume hcont hpath hfinish =>
    exact finish_state_of_dead (k := ⟨k.sched.threadSleepReturn, k.cont, k.shared⟩)
      ⟨q, hq.threadSleepReturn⟩ hdead hfinish
  | intr user hintr => exact Sched.wakeAll_state_of_dead hdead _
  | kill user => exact Sched.sysKill_state_of_dead hdead _ _
  | terminate user hsched =>
    exact (hq.terminateCurrent hsched).state_of_dead hq (fun _ hmem => .inl hmem) hdead

theorem dies_cases {op : Op ω ι} {out : Output ρ} {p : ℕ} (hwf : k.WellFormed)
    (hstep : M.Step k op next out) (hdead : next.sched.state p = .dead) :
    k.sched.state p = .dead ∨ (k.InUser ∧ p = k.sched.curid ∧ op = .terminate) ∨
      ∃ pid, op = .kill pid sigkill ∧ k.sched.KillTarget pid ∧ p = pid.toNat := by
  obtain ⟨q, hq⟩ := id hwf
  cases hstep with
  | @spawn pid user hone hlt hd =>
    by_cases hp : p = pid
    · simp [Sched.threadSpawn, Sched.tcbSetState, hp] at hdead
    · exact .inl (by simpa [Sched.threadSpawn, Sched.tcbSetState, hp] using hdead)
  | @handoff pid user hcur hone hlt hready =>
    by_cases hp : p = pid
    · simp [Sched.kernMainHandoff, Sched.setCurid, Sched.tcbSetState, hp] at hdead
    · exact .inl (by
        simpa [Sched.kernMainHandoff, Sched.setCurid, Sched.tcbSetState, hp] using hdead)
  | yield user =>
    obtain ⟨-, hsame⟩ | ⟨-, hbefore⟩ := hq.threadYield.cases hdead (by decide)
    · cases hsame
    · exact .inl hbefore
  | call user hpath hfinish => exact .inl (state_of_finish_dead hwf hfinish hdead)
  | resume hcont hpath hfinish =>
    exact .inl (state_of_finish_dead (k := ⟨k.sched.threadSleepReturn, k.cont, k.shared⟩)
      ⟨q, hq.threadSleepReturn⟩ hfinish hdead)
  | intr user hintr => exact .inl (Sched.state_of_wakeAll_dead hdead)
  | kill user =>
    obtain hbefore | ⟨rfl, htarget, hp⟩ := Sched.state_of_sysKill_dead hdead
    · exact .inl hbefore
    · exact .inr (.inr ⟨_, rfl, htarget, hp⟩)
  | terminate user hsched =>
    obtain ⟨hp, -⟩ | ⟨-, hbefore⟩ := (hq.terminateCurrent hsched).cases hdead (by decide)
    · exact .inr (.inl ⟨user, hp, rfl⟩)
    · exact .inl hbefore

theorem dead_of_run {k last : Kernel χ κ σ} {trace : List (Op ω ι × Output ρ)} {p : ℕ}
    (run : M.machine.Run (StaysDead p) k trace last) (hwf : k.WellFormed)
    (hdead : k.sched.state p = .dead) : last.sched.state p = .dead := by
  have hboth : last.WellFormed ∧ last.sched.state p = .dead := by
    apply run.invariant
    · exact ⟨hwf, hdead⟩
    · intro k next op out hinv hop hexec
      have hstep := step_of_exec hexec
      exact ⟨wellFormed_step hinv.1 hop.1 hstep, dead_step hinv.1 hinv.2 hop hstep⟩
  exact hboth.2

variable (M) in
/-- The purpose of `SIGKILL`: the ready queue loses the target and keeps its order, and the target
is never ready or running again. -/
def RemovesOnly (k next : Kernel χ κ σ) (pid : ℕ) : Prop :=
  next.sched.readyQueue = k.sched.readyQueue.erase pid ∧
    ∀ trace last, M.machine.Run (StaysDead pid) next trace last →
      last.sched.state pid ≠ .ready ∧ last.sched.state pid ≠ .run

theorem removesOnly_of_killSafe {q : List ℕ} {pid : ℤ} (hwf : k.sched.WellFormed q)
    (htarget : k.sched.KillTarget pid) (hnext : next.sched = k.sched.killTarget pid.toNat)
    (hsafe : k.sched.KillSafe pid) : M.RemovesOnly k next pid.toNat := by
  have hlt : pid.toNat < numIds := (Int.toNat_lt htarget.1).mpr htarget.2.1
  have hafter : next.sched.WellFormed (q.erase pid.toNat) := by
    rw [hnext]
    rcases hsafe with hready | ⟨hnil, hcur⟩
    · exact hwf.killTarget_of_mem ((hwf.mem_iff _ hlt).mpr hready)
    · rw [hwf.readyQueue_eq] at hnil
      subst hnil
      exact hwf.killTarget_of_nil hlt (Ne.symm hcur)
  have hdead : next.sched.state pid.toNat = .dead := by
    rw [hnext, Sched.killTarget_eq]
    simp [Sched.tcbSetPendingSignals, Sched.tcbSetState]
  constructor
  · rw [hafter.readyQueue_eq, hwf.readyQueue_eq]
  · intro trace last run
    rw [dead_of_run run ⟨_, hafter⟩ hdead]
    simp

theorem killSafe_of_removesOnly {q : List ℕ} {pid : ℤ} (hwf : k.sched.WellFormed q)
    (huser : next.InUser) (htarget : k.sched.KillTarget pid)
    (hnext : next.sched = k.sched.killTarget pid.toNat)
    (hremoves : M.RemovesOnly k next pid.toNat) : k.sched.KillSafe pid := by
  obtain ⟨hqueue, hnever⟩ := hremoves
  have hlt : pid.toNat < numIds := (Int.toNat_lt htarget.1).mpr htarget.2.1
  by_cases hready : k.sched.state pid.toNat = .ready
  · exact Or.inl hready
  · have hmem : pid.toNat ∉ q := hwf.not_mem_of_state hready
    -- The links of a thread outside the queue are those of a sole member.
    have hlost : next.sched.readyQueue = [] := by
      have hlinks := hwf.toQueueOk.links_remove_of_not_mem hlt hmem
      rw [hnext, Sched.killTarget_eq]
      exact hlinks.walk_head (Nat.zero_le _)
    rw [hlost, hwf.readyQueue_eq, List.erase_of_not_mem hmem] at hqueue
    subst hqueue
    refine Or.inr ⟨hwf.readyQueue_eq, ?_⟩
    intro hself
    have hdead : next.sched.QueueOk [] := by
      rw [hnext, Sched.killTarget_eq, hwf.toQueueOk.tqueueRemove_nil hlt]
      exact (hwf.toQueueOk.setState hmem .dead (by decide)).congr rfl rfl rfl rfl rfl
    have hcurid : next.sched.curid = pid.toNat := by
      rw [hnext, Sched.killTarget_eq]
      simp [Sched.tcbSetPendingSignals, Sched.tcbSetState, hself]
    have hrevived := hdead.threadYield_state (hcurid ▸ hlt)
    have hyield : M.machine.Run (StaysDead pid.toNat) next [(.yield, .silent)]
        ⟨next.sched.threadYield, next.cont, next.shared⟩ :=
      .single ⟨trivial, fun _ h => by cases h⟩ (if_pos huser)
    exact (hnever _ _ hyield).2 (hcurid ▸ hrevived)

/-- **What SIGKILL removes.** In every state reached from boot, and for every
target the checks of `sys_kill` accept, the call erases its target from the ready
queue for good and leaves the rest in place exactly when `KillSafe` holds. -/
theorem sigkill_removesOnly_iff {shared : σ} {trace : List (Op ω ι × Output ρ)}
    {k next : Kernel χ κ σ} {out : Output ρ} {pid : ℤ}
    (run : M.machine.Run KillHarmless (boot shared) trace k) (htarget : k.sched.KillTarget pid)
    (hkill : M.exec k (.kill pid sigkill) = some (next, out)) :
    M.RemovesOnly k next pid.toNat ↔ k.sched.KillSafe pid := by
  obtain ⟨q, hwf⟩ := wellFormed_of_run run
  cases step_of_exec hkill with
  | kill user =>
    have hnext : (k.sched.sysKill pid sigkill).2 = k.sched.killTarget pid.toNat := by
      simp [Sched.sysKill, htarget, sigkill, nsig]
    have huser : k.cont (k.sched.sysKill pid sigkill).2.curid = none := by
      rw [hnext, Sched.killTarget_eq]
      simp only [Sched.tcbSetPendingSignals, Sched.tcbSetState, Sched.tqueueRemove_curid]
      exact user
    exact ⟨killSafe_of_removesOnly hwf huser htarget hnext,
      removesOnly_of_killSafe hwf htarget hnext⟩

end Monitor

theorem sigkill_removesOnly_of_ready :
    ∃ (k next : Kernel ℕ Unit Unit) (trace : List (Op (SchedCall ℕ) Empty × Output Unit)),
      (schedMonitor ℕ).machine.Run Kernel.KillHarmless (Kernel.boot ()) trace k ∧
      k.sched.KillSafe 2 ∧ (schedMonitor ℕ).RemovesOnly k next 2 := by
  have hguard : ∀ op ∈ ([.spawn 1, .spawn 2, .handoff 1] : List (Op (SchedCall ℕ) Empty)),
      ∀ k : Kernel ℕ Unit Unit, k.KillHarmless op := by
    simp [Kernel.KillHarmless]
  have hrun : (schedMonitor ℕ).machine.Run Kernel.KillHarmless (Kernel.boot ()) _ _ :=
    Machine.run_of_runAll hguard rfl
  have hiff : (schedMonitor ℕ).RemovesOnly _ _ (2 : ℤ).toNat ↔ _ :=
    Monitor.sigkill_removesOnly_iff hrun (by decide) rfl
  exact ⟨_, _, _, hrun, Or.inl rfl, hiff.mpr (Or.inl rfl)⟩

/-- Threads 1, 2 and 3 are spawned and thread 1 goes to sleep, so that thread 2
runs and thread 3 is ready.  Thread 2 kills thread 1, and thread 3 is lost. -/
theorem sigkill_of_sleeper_loses_readyQueue :
    ¬ ∀ (k next : Kernel ℕ Unit Unit) (trace : List (Op (SchedCall ℕ) Empty × Output Unit))
        (out : Output Unit) (pid : ℤ),
      (schedMonitor ℕ).machine.Run Kernel.KillHarmless (Kernel.boot ()) trace k →
      k.sched.KillTarget pid → (schedMonitor ℕ).exec k (.kill pid sigkill) = some (next, out) →
      (schedMonitor ℕ).RemovesOnly k next pid.toNat := by
  intro hall
  have hguard : ∀ op ∈ ([.spawn 1, .spawn 2, .spawn 3, .handoff 1, .call (.sleep 7)] :
      List (Op (SchedCall ℕ) Empty)), ∀ k : Kernel ℕ Unit Unit, k.KillHarmless op := by
    simp [Kernel.KillHarmless]
  have hrun : (schedMonitor ℕ).machine.Run Kernel.KillHarmless (Kernel.boot ()) _ _ :=
    Machine.run_of_runAll hguard rfl
  obtain ⟨hqueue, -⟩ := hall _ _ _ _ 1 hrun (by decide) rfl
  have hlost : ([] : List ℕ) = [3] := hqueue
  cases hlost

end MCertikos.Thread
