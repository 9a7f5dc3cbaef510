/-
# The scheduler invariant along kernel runs

Whatever a subsystem does with its own data, it reaches the scheduler only through wakeups and
sleeps.
-/

import MCertikos.Thread.Kernel

namespace MCertikos.Thread

open Math

variable {χ κ ω ι ρ σ : Type*}

namespace Sched

variable [DecidableEq χ] {s : Sched χ}

def WokenBy (s : Sched χ) (chans : List χ) (p : ℕ) : Prop :=
  1 ≤ p ∧ p < numIds ∧ s.state p = .sleep ∧ ∃ chan ∈ chans, s.channel p = some chan

theorem wakeAll_cons (s : Sched χ) (chan : χ) (rest : List χ) :
    s.wakeAll (chan :: rest) = (s.threadWakeup chan).wakeAll rest := by
  simp only [wakeAll, List.foldl_cons]

open Classical in
theorem wakeAll_fields (s : Sched χ) (chans : List χ) (p : ℕ) :
    (s.wakeAll chans).state p = (if s.WokenBy chans p then .ready else s.state p) ∧
      (s.wakeAll chans).channel p = (if s.WokenBy chans p then none else s.channel p) ∧
      (s.wakeAll chans).curid = s.curid := by
  induction chans generalizing s with
  | nil => simp [wakeAll, WokenBy]
  | cons chan rest ih =>
    obtain ⟨hstate, hchannel, hcurid⟩ := ih (s.threadWakeup chan)
    obtain ⟨hstate₁, hchannel₁, hcurid₁⟩ := s.threadWakeup_fields chan p
    rw [wakeAll_cons, hstate, hchannel, hcurid, hcurid₁]
    by_cases hfirst : 1 ≤ p ∧ p < numIds ∧ s.SleepsOn chan p
    · rw [if_pos hfirst] at hstate₁ hchannel₁
      have hrest : ¬ (s.threadWakeup chan).WokenBy rest p := by
        rintro ⟨-, -, hsleep, -⟩
        rw [hstate₁] at hsleep
        cases hsleep
      have hall : s.WokenBy (chan :: rest) p :=
        ⟨hfirst.1, hfirst.2.1, hfirst.2.2.2, chan, List.mem_cons_self, hfirst.2.2.1⟩
      simp [hrest, hall, hstate₁, hchannel₁]
    · rw [if_neg hfirst] at hstate₁ hchannel₁
      have hiff : (s.threadWakeup chan).WokenBy rest p ↔ s.WokenBy (chan :: rest) p := by
        unfold WokenBy
        rw [hstate₁, hchannel₁]
        refine and_congr_right fun hone => and_congr_right fun hlt =>
          and_congr_right fun hsleep => ?_
        simp only [List.mem_cons, exists_eq_or_imp]
        refine (or_iff_right ?_).symm
        exact fun hchan => hfirst ⟨hone, hlt, hchan, hsleep⟩
      simp [hiff, hstate₁, hchannel₁]

@[simp] theorem wakeAll_curid (s : Sched χ) (chans : List χ) :
    (s.wakeAll chans).curid = s.curid := (s.wakeAll_fields chans 0).2.2

theorem postSignal_eq_wakeAll (s : Sched χ) (pid : ℕ) (signum : ℤ) :
    ∃ chans, s.postSignal pid signum = (s.tcbAddPendingSignal pid signum).wakeAll chans := by
  unfold Sched.postSignal
  dsimp only
  split
  · split
    · exact ⟨[], rfl⟩
    · next chan hchan => exact ⟨[chan], by simp only [wakeAll, List.foldl]⟩
  · exact ⟨[], rfl⟩

theorem WellFormed.wakeAll {q : List ℕ} (hwf : s.WellFormed q) (chans : List χ) :
    ∃ q', (s.wakeAll chans).WellFormed q' := by
  induction chans generalizing s q with
  | nil => exact ⟨q, hwf⟩
  | cons chan rest ih =>
    rw [wakeAll_cons]
    exact ih (hwf.threadWakeup chan)

/-- The condition under which `SIGKILL` does what it is for: its target is
ready, or no thread is ready and the target is not the caller. -/
def KillSafe (s : Sched χ) (pid : ℤ) : Prop :=
  s.state pid.toNat = .ready ∨ (s.readyQueue = [] ∧ pid.toNat ≠ s.curid)

instance (s : Sched χ) (pid : ℤ) : Decidable (s.KillSafe pid) :=
  inferInstanceAs (Decidable (_ ∨ _))

theorem WellFormed.sysKill {q : List ℕ} (hwf : s.WellFormed q) {pid signum : ℤ}
    (hsafe : signum = sigkill → s.KillTarget pid → s.KillSafe pid) :
    ∃ q', (s.sysKill pid signum).2.WellFormed q' := by
  unfold Sched.sysKill
  split_ifs with hsig htarget hkill
  · exact ⟨q, hwf⟩
  · have hlt : pid.toNat < numIds := (Int.toNat_lt htarget.1).mpr htarget.2.1
    rcases hsafe hkill htarget with hready | ⟨hnil, hcur⟩
    · exact ⟨_, hwf.killTarget_of_mem ((hwf.mem_iff _ hlt).mpr hready)⟩
    · rw [hwf.readyQueue_eq] at hnil
      subst hnil
      exact ⟨_, hwf.killTarget_of_nil hlt (Ne.symm hcur)⟩
  · obtain ⟨chans, heq⟩ := s.postSignal_eq_wakeAll pid.toNat signum
    rw [heq]
    exact (hwf.addPendingSignal _ _).wakeAll chans
  · exact ⟨q, hwf⟩

end Sched

namespace Kernel

def WellFormed (k : Kernel χ κ σ) : Prop := ∃ q, k.sched.WellFormed q

theorem wellFormed_boot (shared : σ) : (boot shared : Kernel χ κ σ).WellFormed :=
  ⟨[], Sched.wellFormed_threadInit⟩

variable [DecidableEq χ] {path : Path χ κ ρ σ}

theorem finish_cases {k next : Kernel χ κ σ} {out : Output ρ}
    (hfinish : k.finish path = some (next, out)) :
    (∃ value, path.stop = .ret value ∧ out = .ret k.sched.curid value ∧
      next = ⟨k.sched.wakeAll path.wakes, Function.update k.cont k.sched.curid none,
        path.shared⟩) ∨
    (∃ chan cont sched, path.stop = .block chan cont ∧ out = .silent ∧
      (k.sched.wakeAll path.wakes).threadSleep chan = some sched ∧
      next = ⟨sched, Function.update k.cont k.sched.curid (some cont), path.shared⟩) := by
  unfold finish at hfinish
  dsimp only at hfinish
  split at hfinish
  · next value hstop =>
    simp only [Option.some.injEq, Prod.mk.injEq] at hfinish
    exact Or.inl ⟨value, hstop, hfinish.2.symm, hfinish.1.symm⟩
  · next chan cont hstop =>
    obtain ⟨sched, hsleep, hpair⟩ := Option.map_eq_some_iff.mp hfinish
    simp only [Prod.mk.injEq] at hpair
    exact Or.inr ⟨chan, cont, sched, hstop, hpair.2.symm, hsleep, hpair.1.symm⟩

theorem WellFormed.finish {k next : Kernel χ κ σ} {out : Output ρ} (hwf : k.WellFormed)
    (hfinish : k.finish path = some (next, out)) : next.WellFormed := by
  obtain ⟨q, hq⟩ := hwf
  obtain ⟨q', hwake⟩ := hq.wakeAll path.wakes
  obtain ⟨value, -, -, rfl⟩ | ⟨chan, cont, sched, -, -, hsleep, rfl⟩ := finish_cases hfinish
  · exact ⟨q', hwake⟩
  · exact ⟨_, (hwake.threadSleep hsleep).wellFormed⟩

def KillHarmless (k : Kernel χ κ σ) : Op ω ι → Prop
  | .kill pid signum => signum = sigkill → k.sched.KillTarget pid → k.sched.KillSafe pid
  | _ => True

def NoSigkill (_ : Kernel χ κ σ) : Op ω ι → Prop
  | .kill _ signum => signum ≠ sigkill
  | _ => True

/-- The guard that admits every operation but `SIGKILL`, and system calls only by
processes, not by the boot thread. -/
def ProcessStep (k : Kernel χ κ σ) : Op ω ι → Prop
  | .kill _ signum => signum ≠ sigkill
  | .call _ => 1 ≤ k.sched.curid
  | _ => True

instance (k : Kernel χ κ σ) (op : Op ω ι) : Decidable (k.ProcessStep op) := by
  cases op <;> unfold ProcessStep <;> infer_instance

omit [DecidableEq χ] in
theorem ProcessStep.noSigkill {k : Kernel χ κ σ} {op : Op ω ι} (hop : k.ProcessStep op) :
    k.NoSigkill op := by
  cases op with
  | kill pid signum => exact hop
  | spawn | handoff | yield | call | resume | intr | terminate => trivial

omit [DecidableEq χ] in
theorem NoSigkill.killHarmless {k : Kernel χ κ σ} {op : Op ω ι} (hop : k.NoSigkill op) :
    k.KillHarmless op := by
  cases op with
  | kill pid signum => exact fun hkill => absurd hkill hop
  | spawn | handoff | yield | call | resume | intr | terminate => trivial

end Kernel

namespace Monitor

open Kernel

variable [DecidableEq χ] {M : Monitor χ κ ω ι ρ σ}

theorem wellFormed_step {k next : Kernel χ κ σ} {op : Op ω ι} {out : Output ρ}
    (hwf : k.WellFormed) (hsafe : k.KillHarmless op) (hstep : M.Step k op next out) :
    next.WellFormed := by
  obtain ⟨q, hq⟩ := hwf
  cases hstep with
  | spawn user hone hlt hdead => exact ⟨_, hq.threadSpawn hlt hdead⟩
  | handoff user hcur hone hlt hready =>
    exact ⟨_, hq.kernMainHandoff hcur ((hq.mem_iff _ hlt).mpr hready)⟩
  | yield user => exact ⟨_, hq.threadYield.wellFormed⟩
  | call user hpath hfinish => exact WellFormed.finish ⟨q, hq⟩ hfinish
  | resume hcont hpath hfinish =>
    exact WellFormed.finish ⟨q, hq.threadSleepReturn⟩ hfinish
  | intr user hintr => exact hq.wakeAll _
  | kill user => exact hq.sysKill hsafe
  | terminate user hsched => exact ⟨_, (hq.terminateCurrent hsched).wellFormed⟩

theorem wellFormed_of_run {shared : σ} {trace : List (Op ω ι × Output ρ)}
    {k : Kernel χ κ σ} (run : M.machine.Run KillHarmless (boot shared) trace k) : k.WellFormed :=
  run.invariant (wellFormed_boot shared) fun hwf hsafe hexec =>
    wellFormed_step hwf hsafe (step_of_exec hexec)

end Monitor

/-! ## The scheduler on its own -/

inductive SchedCall (χ : Type*)
  | sleep (chan : χ)
  | wakeup (chan : χ)

def schedMonitor (χ : Type*) : Monitor χ Unit (SchedCall χ) Empty Unit Unit where
  call _ args _ :=
    match args with
    | .sleep chan => some ⟨(), [], .block chan ()⟩
    | .wakeup chan => some ⟨(), [chan], .ret ()⟩
  resume _ _ _ := some ⟨(), [], .ret ()⟩
  intr irq := nomatch irq

structure Sched.Consistent (s : Sched χ) : Prop where
  /-- Head, tail and links spell a finite duplicate-free doubly linked list. -/
  represents : (s.links numIds).Represents numIds s.readyQueue
  ready_iff : ∀ pid, 1 ≤ pid → pid < numIds →
    (pid ∈ s.readyQueue ↔ s.state pid = .ready)
  run_iff : ∀ pid, 1 ≤ pid → pid < numIds → (s.state pid = .run ↔ pid = s.curid)
  sleep : ∀ pid, 1 ≤ pid → pid < numIds → s.state pid = .sleep →
    s.channel pid ≠ none ∧ ∀ chid ≤ numIds, pid ∉ s.tqueueList chid

theorem Sched.WellFormed.consistent {s : Sched χ} {q : List ℕ} (hwf : s.WellFormed q) :
    s.Consistent where
  represents := by
    rw [hwf.readyQueue_eq]
    exact hwf.represents
  ready_iff pid _ hlt := by
    rw [hwf.readyQueue_eq]
    exact hwf.mem_iff pid hlt
  run_iff pid hone hlt :=
    ⟨hwf.eq_curid_of_run pid hone hlt, fun heq => heq ▸ hwf.curid_run⟩
  sleep pid _ hlt hsleep :=
    ⟨hwf.channel_of_sleep pid hlt hsleep, fun _ hchid =>
      hwf.toQueueOk.not_mem_tqueueList hchid (hwf.not_mem_of_state (by simp [hsleep]))⟩

/-- **Scheduler invariant.** In every reachable state the ready queue is a duplicate-free doubly
linked list of exactly the ready threads, only the current thread runs, and every sleeper has a
channel and is in no queue. -/
theorem schedMonitor_consistent [DecidableEq χ]
    {trace : List (Op (SchedCall χ) Empty × Output Unit)} {k : Kernel χ Unit Unit}
    (run : (schedMonitor χ).machine.Run Kernel.NoSigkill (Kernel.boot ()) trace k) :
    k.sched.Consistent := by
  obtain ⟨q, hwf⟩ := Monitor.wellFormed_of_run
    (run.weaken fun _ _ hop => hop.killHarmless)
  exact hwf.consistent

theorem schedMonitor_consistent_of_boot :
    ∃ k : Kernel ℕ Unit Unit,
      (∃ trace, (schedMonitor ℕ).machine.Run Kernel.NoSigkill (Kernel.boot ()) trace k) ∧
      k.sched.curid = 1 ∧ k.sched.Consistent := by
  have hguard : ∀ op ∈ ([.spawn 1, .spawn 2, .handoff 2, .call (.sleep 7)] :
      List (Op (SchedCall ℕ) Empty)), ∀ k : Kernel ℕ Unit Unit, k.NoSigkill op := by
    simp [Kernel.NoSigkill]
  have hrun : (schedMonitor ℕ).machine.Run Kernel.NoSigkill (Kernel.boot ()) _ _ :=
    Machine.run_of_runAll hguard rfl
  exact ⟨_, ⟨_, hrun⟩, rfl, schedMonitor_consistent hrun⟩

end MCertikos.Thread
