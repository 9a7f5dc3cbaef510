/-
# Pausing

`sys_pause` gives the running thread the sleep state and then calls `thread_yield`, which gives it
the ready state again and puts it at the tail of the ready queue.
-/

import MCertikos.Thread.Fifo

namespace MCertikos.Thread

open Math

universe u

namespace Sched

variable {χ : Type u}

def sysPause (s : Sched χ) : Sched χ :=
  if s.pendingSignals s.curid ≠ 0 then s else (s.tcbSetState s.curid .sleep).threadYield

variable {s : Sched χ}

theorem sysPause_of_none (hnone : s.pendingSignals s.curid = 0) : s.sysPause = s.threadYield := by
  have hset : ((s.tcbSetState s.curid .sleep).tcbSetState s.curid .ready) =
      s.tcbSetState s.curid .ready := by
    simp only [tcbSetState, Function.update_idem]
  have hcurid : (s.tcbSetState s.curid .sleep).curid = s.curid := rfl
  rw [sysPause, if_neg (not_not.mpr hnone), threadYield, threadYield, hcurid, hset]

theorem Fifo.pause (hwf : s.WellFormed s.readyQueue) (hnone : s.pendingSignals s.curid = 0) :
    s.Fifo [(s.curid, .sleep), (s.curid, .ready), (s.sysPause.curid, .run)] s.sysPause := by
  rw [sysPause_of_none hnone]
  obtain ⟨hwf', hstate, horder⟩ := Fifo.yield hwf
  refine ⟨hwf', ?_, horder⟩
  rw [hstate]
  simp only [StateChanges.replay, List.foldl_cons, List.foldl_nil, Function.update_idem]

theorem Fifo.addPending (hwf : s.WellFormed s.readyQueue) (pid : ℕ) (signum : ℤ) :
    s.Fifo [] (s.tcbAddPendingSignal pid signum) :=
  .of_wellFormed (hwf.addPendingSignal pid signum) (s.tcbAddPendingSignal_fields pid signum).1
    (by simp [StateChanges.given])

end Sched

inductive PauseOp (χ : Type u)
  | sched (op : SchedOp χ)
  | pause
  | kill (pid signum : ℤ)
  deriving DecidableEq

namespace Sched

variable {χ : Type u} [DecidableEq χ]

def signalled (s : Sched χ) (pid : ℕ) : List ℕ :=
  if s.state pid = .sleep then
    match s.channel pid with
    | none => []
    | some chan => s.woken chan
  else []

def pauseMachine : Machine (Sched χ) (PauseOp χ) StateChanges where
  exec s
    | .sched op => fifoMachine.exec s op
    | .pause =>
      let t := s.sysPause
      some (t, if s.pendingSignals s.curid ≠ 0 then []
        else [(s.curid, .sleep), (s.curid, .ready), (t.curid, .run)])
    | .kill pid signum =>
      if signum = sigkill then none
      else
        let r := s.sysKill pid signum
        some (r.2, if r.1 = .succ then (s.signalled pid.toNat).map fun p => (p, .ready) else [])

def pauseChanges (trace : List (PauseOp χ × StateChanges)) : StateChanges :=
  trace.flatMap Prod.snd

variable {s t : Sched χ}

theorem Fifo.postSignal (hwf : s.WellFormed s.readyQueue) (pid : ℕ) (signum : ℤ) :
    s.Fifo ((s.signalled pid).map fun p => (p, .ready)) (s.postSignal pid signum) := by
  have hadd := Fifo.addPending hwf pid signum
  obtain ⟨hstate, hchannel⟩ := s.tcbAddPendingSignal_fields pid signum
  unfold Sched.postSignal signalled
  dsimp only
  rw [hstate, hchannel]
  by_cases hsleep : s.state pid = .sleep
  · rw [if_pos hsleep, if_pos hsleep]
    cases s.channel pid with
    | none => exact hadd
    | some chan =>
      have hwoken : (s.tcbAddPendingSignal pid signum).woken chan = s.woken chan := by
        simp only [woken, SleepsOn, hstate, hchannel]
      have hwake : (s.tcbAddPendingSignal pid signum).Fifo _
          ((s.tcbAddPendingSignal pid signum).threadWakeup chan) :=
        Fifo.wakeup hadd.wellFormed
      rw [hwoken] at hwake
      exact hadd.trans hwake
  · rw [if_neg hsleep, if_neg hsleep]
    exact hadd

theorem sysKill_cases (s : Sched χ) (pid : ℤ) {signum : ℤ} (hkill : signum ≠ sigkill) :
    ((s.sysKill pid signum).1 ≠ .succ ∧ (s.sysKill pid signum).2 = s) ∨
      ((1 ≤ signum ∧ signum < nsig) ∧ s.KillTarget pid ∧
        s.sysKill pid signum = (.succ, s.postSignal pid.toNat signum)) := by
  unfold sysKill
  by_cases hrange : signum < 1 ∨ nsig ≤ signum
  · rw [if_pos hrange]
    exact Or.inl ⟨by simp, rfl⟩
  rw [if_neg hrange]
  by_cases htarget : s.KillTarget pid
  · rw [if_neg (not_not.mpr htarget), if_neg hkill]
    exact Or.inr ⟨by omega, htarget, rfl⟩
  · rw [if_pos htarget]
    exact Or.inl ⟨by simp, rfl⟩

theorem Fifo.pauseStep (hwf : s.WellFormed s.readyQueue) {op : PauseOp χ}
    {changes : StateChanges} (hexec : pauseMachine.exec s op = some (t, changes)) :
    s.Fifo changes t := by
  cases op with
  | sched op => exact Fifo.step hwf hexec
  | pause =>
    obtain ⟨rfl, rfl⟩ := Prod.mk.inj (Option.some.inj hexec)
    by_cases hnone : s.pendingSignals s.curid = 0
    · rw [if_neg (not_not.mpr hnone)]
      exact Fifo.pause hwf hnone
    · rw [if_pos hnone, sysPause, if_pos hnone]
      exact .refl hwf
  | kill pid signum =>
    simp only [pauseMachine, Option.ite_none_left_eq_some, Option.some.injEq,
      Prod.mk.injEq] at hexec
    obtain ⟨hkill, rfl, rfl⟩ := hexec
    obtain ⟨hfail, hsame⟩ | ⟨-, -, heq⟩ := sysKill_cases s pid hkill
    · rw [if_neg hfail, hsame]
      exact .refl hwf
    · rw [heq, if_pos rfl]
      exact Fifo.postSignal hwf _ _

theorem Fifo.pauseRun (hwf : s.WellFormed s.readyQueue) {trace : List (PauseOp χ × StateChanges)}
    (hrun : pauseMachine.Run Machine.anyStep s trace t) : s.Fifo (pauseChanges trace) t := by
  induction hrun with
  | start => exact .refl hwf
  | extend prior _ realized ih =>
    have hstep := ih.trans (Fifo.pauseStep ih.wellFormed realized)
    simpa [pauseChanges] using hstep

theorem state_sysKill_of_ready {pid : ℕ} (hready : s.state pid = .ready) {signum : ℤ}
    (hkill : signum ≠ sigkill) : (s.sysKill pid signum).2.state pid = .ready := by
  obtain ⟨-, hsame⟩ | ⟨-, -, heq⟩ := sysKill_cases s pid hkill
  · rw [hsame, hready]
  · have hstate := (s.tcbAddPendingSignal_fields pid signum).1
    have hawake : ¬ (s.tcbAddPendingSignal pid signum).state pid = .sleep := by
      rw [hstate, hready]
      decide
    rw [heq, Int.toNat_natCast, postSignal, if_neg hawake, hstate, hready]

theorem last_not_overtaken {rest pushed popped q : List ℕ} {x : ℕ} (hx : x ∉ rest)
    (horder : rest ++ [x] ++ pushed = popped ++ q) (hfew : popped.length < (rest ++ [x]).length) :
    x ∉ popped ∧ x ∈ q := by
  obtain ⟨more, rfl, -⟩ | ⟨left, hleft, rfl⟩ := List.append_eq_append_iff.mp horder
  · rw [List.length_append] at hfew
    omega
  · obtain rfl | ⟨init, y, rfl⟩ := List.eq_nil_or_concat left
    · rw [hleft, List.append_nil] at hfew
      omega
    · rw [List.concat_eq_append, ← List.append_assoc] at hleft
      obtain ⟨rfl, hlast⟩ := List.append_inj' hleft rfl
      obtain rfl := List.singleton_inj.mp hlast
      refine ⟨fun hmem => hx (List.mem_append_left _ hmem), ?_⟩
      simp

/-- What pausing is for: while nobody sends the thread a signal, it is not ready and does not
run. -/
def StaysPaused (s : Sched χ) : Prop :=
  ∀ trace t, pauseMachine.Run (fun _ op => ∀ signum, op ≠ .kill s.curid signum) s.sysPause trace t →
    s.curid ∉ t.readyQueue ∧ t.curid ≠ s.curid

/-- **Pausing is yielding.** Of the thread that pauses with no signal pending, `u` being the
state after: it is ready or runs on; it runs again after as many yields as threads were ready;
and until so many threads have been switched to it waits for its turn, ready whether it gets a
signal or not. -/
structure Yields (s u : Sched χ) : Prop where
  ready : s.curid ∈ u.curid :: u.readyQueue
  returns : ∃ trace t, pauseMachine.Run (fun _ op => op = .sched .yield) u trace t ∧
    trace.length = s.readyQueue.length ∧ t.curid = s.curid
  turn : ∀ trace t, pauseMachine.Run Machine.anyStep u trace t →
    ((pauseChanges trace).given .run).length < s.readyQueue.length →
    s.curid ∉ (pauseChanges trace).given .run ∧ t.curid ≠ s.curid ∧
      s.curid ∈ t.readyQueue ∧ t.state s.curid = .ready ∧
      ∀ signum : ℤ, signum ≠ sigkill → (t.sysKill s.curid signum).2.state s.curid = .ready

theorem run_yields (s : Sched χ) (n : ℕ) : ∃ trace,
    pauseMachine.Run (fun _ op => op = .sched .yield) s trace (threadYield^[n] s) ∧
      trace.length = n := by
  induction n with
  | zero => exact ⟨[], .start, rfl⟩
  | succ n ih =>
    obtain ⟨trace, hrun, hlength⟩ := ih
    rw [Function.iterate_succ_apply']
    exact ⟨_, hrun.extend rfl rfl, by simp [hlength]⟩

theorem curid_not_overtaken (hwf : s.WellFormed s.readyQueue)
    (hnone : s.pendingSignals s.curid = 0) {trace : List (PauseOp χ × StateChanges)}
    (hrun : pauseMachine.Run Machine.anyStep s.sysPause trace t)
    (hturn : ((pauseChanges trace).given .run).length < s.readyQueue.length) :
    s.curid ∉ (pauseChanges trace).given .run ∧ s.curid ∈ t.readyQueue := by
  have hpause := Fifo.pause hwf hnone
  have horder : s.readyQueue ++ [s.curid] = s.sysPause.curid :: s.sysPause.readyQueue :=
    hpause.order
  cases hq : s.readyQueue with
  | nil => exact absurd hturn (by simp [hq])
  | cons p rest =>
    rw [hq, List.cons_append] at horder
    obtain ⟨-, hqueue⟩ := List.cons.inj horder
    have hnodup : (rest ++ [s.curid]).Nodup := by
      rw [hqueue]
      exact hpause.wellFormed.toQueueOk.represents.nodup
    have hnot : s.curid ∉ rest := fun hmem =>
      List.disjoint_of_nodup_append hnodup hmem (List.mem_singleton_self _)
    have hsplit := (Fifo.pauseRun hpause.wellFormed hrun).order
    rw [← hqueue] at hsplit
    exact last_not_overtaken hnot hsplit (by rw [hq] at hturn; simpa using hturn)

theorem yields_sysPause (hwf : s.WellFormed s.readyQueue) (hnone : s.pendingSignals s.curid = 0) :
    s.Yields s.sysPause where
  ready := by
    have horder : s.readyQueue ++ [s.curid] = s.sysPause.curid :: s.sysPause.readyQueue :=
      (Fifo.pause hwf hnone).order
    rw [← horder]
    simp
  returns := by
    obtain ⟨trace, hrun, hlength⟩ := run_yields s.sysPause s.readyQueue.length
    refine ⟨trace, _, hrun, hlength, ?_⟩
    -- With the yield inside `sys_pause` the line of threads has turned once around.
    have hline := (iterate_threadYield hwf (s.readyQueue.length + 1)).2
    rw [Function.iterate_succ_apply, ← sysPause_of_none hnone, ← List.length_cons,
      List.rotate_length] at hline
    exact (List.cons.inj hline).1
  turn trace t hrun hturn := by
    obtain ⟨hunseen, hmem⟩ := curid_not_overtaken hwf hnone hrun hturn
    have hwf' := (Fifo.pauseRun (Fifo.pause hwf hnone).wellFormed hrun).wellFormed
    have hready := (hwf'.mem_iff _ hwf.curid_lt).mp hmem
    refine ⟨hunseen, ?_, hmem, hready, fun signum hkill => state_sysKill_of_ready hready hkill⟩
    intro heq
    exact hwf'.curid_not_mem (heq ▸ hmem)

/-- **A paused thread never stays paused.** In no state does a thread that calls `sys_pause` with
an empty pending set stay away from the ready queue and the CPU until it is signalled; with a
signal pending the call returns at once. -/
theorem paused_iff_pending (hwf : s.WellFormed s.readyQueue) :
    ((s.pendingSignals s.curid = 0 → s.StaysPaused) ↔ s.pendingSignals s.curid ≠ 0) ∧
      (s.pendingSignals s.curid ≠ 0 → s.sysPause = s) ∧
      (s.pendingSignals s.curid = 0 → s.Yields s.sysPause) := by
  refine ⟨⟨fun hstays hnone => ?_, fun hsome hnone => absurd hnone hsome⟩, fun hsome => if_pos hsome,
    yields_sysPause hwf⟩
  obtain ⟨hqueue, hcurid⟩ := hstays hnone [] _ .start
  obtain heq | hmem := List.mem_cons.mp (yields_sysPause hwf hnone).ready
  · exact hcurid heq.symm
  · exact hqueue hmem

def oneRunning : Sched Unit := ((threadInit.threadSpawn 1).threadSpawn 2).kernMainHandoff 1

theorem wellFormed_oneRunning : oneRunning.WellFormed [2] :=
  ((wellFormed_threadInit.threadSpawn (by decide) rfl).threadSpawn (by decide)
    rfl).kernMainHandoff rfl (by decide)

theorem paused_iff_pending_of_one : ¬ oneRunning.StaysPaused ∧
    oneRunning.sysPause.curid = 2 ∧ (oneRunning.sysPause.sysKill 1 2).2.state 1 = .ready := by
  have hq := wellFormed_oneRunning.toQueueOk.readyQueue_eq
  obtain ⟨hiff, -, hyields⟩ := paused_iff_pending (hq.symm ▸ wellFormed_oneRunning)
  obtain ⟨-, -, -, -, hkill⟩ := (hyields (by decide)).turn [] _ .start (by rw [hq]; decide)
  exact ⟨fun hstays => hiff.mp (fun _ => hstays) (by decide), by decide, hkill 2 (by decide)⟩

/-- **A paused thread runs again without a signal.** Thread 1 pauses with no signal pending;
thread 2 yields once, and thread 1 runs. -/
theorem paused_runs_without_signal : ∃ t, pauseMachine.Run Machine.anyStep oneRunning
      [(.pause, [(1, .sleep), (1, .ready), (2, .run)]),
        (.sched .yield, [(2, .ready), (1, .run)])] t ∧
      oneRunning.pendingSignals 1 = 0 ∧ oneRunning.sysPause.readyQueue = [1] ∧
      t.curid = 1 ∧ t.state 1 = .run := by
  have heval : ∃ r ∈ pauseMachine.runAll oneRunning [.pause, .sched .yield],
      r.2 = [[(1, .sleep), (1, .ready), (2, .run)], [(2, .ready), (1, .run)]] ∧
      r.1.curid = 1 ∧ r.1.state 1 = .run := by
    decide +kernel
  obtain ⟨⟨t, _⟩, hrunAll, rfl, hcurid, hstate⟩ := heval
  exact ⟨t, Machine.run_of_runAll (fun _ _ _ => trivial) hrunAll, by decide, by decide, hcurid,
    hstate⟩

end Sched

end MCertikos.Thread
