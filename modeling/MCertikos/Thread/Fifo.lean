/-
# First in, first out

Every switch of the scheduler takes the head of the ready queue, and every thread that becomes
ready is put at its tail.
-/

import MCertikos.Math.Run
import MCertikos.Thread.SchedInv
import Mathlib.Data.List.Rotate
import Mathlib.Logic.Function.Iterate

namespace MCertikos.Thread

open Math Function

universe u

inductive SchedOp (χ : Type u)
  | spawn (pid : ℕ)
  | yield
  | sleep (chan : χ)
  /-- The rest of `thread_sleep`, once the sleeper runs again. -/
  | sleepReturn
  | wakeup (chan : χ)
  deriving DecidableEq

abbrev StateChanges := List (ℕ × TState)

def StateChanges.replay (changes : StateChanges) (state : ℕ → TState) : ℕ → TState :=
  changes.foldl (fun state change => update state change.1 change.2) state

def StateChanges.given (changes : StateChanges) (state : TState) : List ℕ :=
  (changes.filter fun change => change.2 = state).map Prod.fst

theorem StateChanges.replay_append (before after : StateChanges) (state : ℕ → TState) :
    (before ++ after).replay state = after.replay (before.replay state) :=
  List.foldl_append

theorem StateChanges.given_append (before after : StateChanges) (state : TState) :
    (before ++ after).given state = before.given state ++ after.given state := by
  simp only [given, List.filter_append, List.map_append]

def stateChanges {χ : Type u} (trace : List (SchedOp χ × StateChanges)) : StateChanges :=
  trace.flatMap Prod.snd

namespace Sched

variable {χ : Type u}

/-- The scheduler calls.  `kctx_new` hands out threads that are dead, and a thread goes to
sleep only while another one is ready. -/
def fifoMachine [DecidableEq χ] : Machine (Sched χ) (SchedOp χ) StateChanges where
  exec s
    | .spawn pid =>
      if 1 ≤ pid ∧ pid < numIds ∧ s.state pid = .dead then
        some (s.threadSpawn pid, [(pid, .ready)])
      else none
    | .yield =>
      let t := s.threadYield
      some (t, [(s.curid, .ready), (t.curid, .run)])
    | .sleep chan =>
      (s.threadSleep chan).map fun t => (t, [(s.curid, .sleep), (t.curid, .run)])
    | .sleepReturn => some (s.threadSleepReturn, [])
    | .wakeup chan => some (s.threadWakeup chan, (s.woken chan).map fun pid => (pid, .ready))

structure Fifo (s : Sched χ) (changes : StateChanges) (t : Sched χ) : Prop where
  wellFormed : t.WellFormed t.readyQueue
  state_eq : t.state = changes.replay s.state
  order : s.readyQueue ++ changes.given .ready = changes.given .run ++ t.readyQueue

namespace Fifo

variable {s t u : Sched χ} {before after : StateChanges}

theorem refl (hwf : s.WellFormed s.readyQueue) : s.Fifo [] s where
  wellFormed := hwf
  state_eq := rfl
  order := by simp [StateChanges.given]

theorem trans (hfirst : s.Fifo before t) (hsecond : t.Fifo after u) :
    s.Fifo (before ++ after) u where
  wellFormed := hsecond.wellFormed
  state_eq := by rw [StateChanges.replay_append, ← hfirst.state_eq, hsecond.state_eq]
  order := by
    rw [StateChanges.given_append, StateChanges.given_append, ← List.append_assoc, hfirst.order,
      List.append_assoc, hsecond.order, List.append_assoc]

theorem of_wellFormed {q : List ℕ} {changes : StateChanges} (hwf : t.WellFormed q)
    (hstate : t.state = changes.replay s.state)
    (horder : s.readyQueue ++ changes.given .ready = changes.given .run ++ q) :
    s.Fifo changes t := by
  have hq := hwf.toQueueOk.readyQueue_eq
  exact ⟨hq.symm ▸ hwf, hstate, hq.symm ▸ horder⟩

end Fifo

variable {s t : Sched χ} {chan : χ}

theorem Fifo.yield (hwf : s.WellFormed s.readyQueue) :
    s.Fifo [(s.curid, .ready), (s.threadYield.curid, .run)] s.threadYield := by
  have hswitch := hwf.threadYield
  exact .of_wellFormed hswitch.wellFormed hswitch.state hswitch.queue

theorem Fifo.sleep (hwf : s.WellFormed s.readyQueue) (hsleep : s.threadSleep chan = some t) :
    s.Fifo [(s.curid, .sleep), (t.curid, .run)] t := by
  have hswitch := hwf.threadSleep hsleep
  refine .of_wellFormed hswitch.wellFormed hswitch.state ?_
  simp [StateChanges.given, hswitch.queue]

theorem iterate_threadYield (hwf : s.WellFormed s.readyQueue) (n : ℕ) :
    (threadYield^[n] s).WellFormed (threadYield^[n] s).readyQueue ∧
      (threadYield^[n] s).curid :: (threadYield^[n] s).readyQueue =
        (s.curid :: s.readyQueue).rotate n := by
  induction n with
  | zero => exact ⟨hwf, (List.rotate_zero _).symm⟩
  | succ n ih =>
    obtain ⟨hwf', hline⟩ := ih
    rw [Function.iterate_succ_apply', ← List.rotate_rotate, ← hline, List.rotate_cons_succ,
      List.rotate_zero]
    exact ⟨hwf'.threadYield.wellFormed, hwf'.threadYield.queue.symm⟩

theorem replay_ready (pids : List ℕ) (state : ℕ → TState) (p : ℕ) :
    StateChanges.replay (pids.map fun pid => (pid, .ready)) state p =
      if p ∈ pids then .ready else state p := by
  induction pids generalizing state with
  | nil => rfl
  | cons pid rest ih =>
    have hcons : StateChanges.replay ((pid :: rest).map fun pid => (pid, .ready)) state =
        StateChanges.replay (rest.map fun pid => (pid, .ready))
          (update state pid .ready) := rfl
    rw [hcons, ih, update_apply]
    by_cases hp : p = pid
    · simp [hp]
    · simp [hp]

theorem given_ready_map (pids : List ℕ) :
    StateChanges.given (pids.map fun pid => (pid, .ready)) .ready = pids ∧
      StateChanges.given (pids.map fun pid => (pid, .ready)) .run = [] := by
  constructor
  · simp [StateChanges.given, List.filter_map, Function.comp_def]
  · simp [StateChanges.given, List.filter_map, Function.comp_def]

section Wakeup

variable [DecidableEq χ]

theorem mem_woken {p : ℕ} : p ∈ s.woken chan ↔ 1 ≤ p ∧ p < numIds ∧ s.SleepsOn chan p := by
  have hids : numIds = 64 := rfl
  simp only [woken, List.mem_filter, decide_eq_true_eq, List.mem_range'_1, ← and_assoc]
  refine and_congr_left fun _ => ?_
  omega

theorem woken_sorted (s : Sched χ) (chan : χ) : (s.woken chan).Pairwise (· < ·) :=
  List.Pairwise.filter _ List.pairwise_lt_range'

theorem Fifo.wakeup (hwf : s.WellFormed s.readyQueue) :
    s.Fifo ((s.woken chan).map fun pid => (pid, .ready)) (s.threadWakeup chan) := by
  obtain ⟨hready, hrun⟩ := given_ready_map (s.woken chan)
  refine .of_wellFormed (hwf.threadWakeup chan) ?_ ?_
  · funext p
    rw [replay_ready, (s.threadWakeup_fields chan p).1]
    simp only [mem_woken]
  · rw [hready, hrun, List.nil_append]

theorem Fifo.step (hwf : s.WellFormed s.readyQueue) {op : SchedOp χ} {changes : StateChanges}
    (hexec : fifoMachine.exec s op = some (t, changes)) : s.Fifo changes t := by
  cases op with
  | spawn pid =>
    simp only [fifoMachine, Option.ite_none_right_eq_some, Option.some.injEq,
      Prod.mk.injEq] at hexec
    obtain ⟨⟨-, hlt, hdead⟩, rfl, rfl⟩ := hexec
    refine .of_wellFormed (hwf.threadSpawn hlt hdead) ?_ rfl
    rw [threadSpawn, tqueueEnqueue_state]
    rfl
  | yield =>
    obtain ⟨rfl, rfl⟩ := Prod.mk.inj (Option.some.inj hexec)
    exact Fifo.yield hwf
  | sleep chan =>
    obtain ⟨t', hsleep, heq⟩ := Option.map_eq_some_iff.mp hexec
    obtain ⟨rfl, rfl⟩ := Prod.mk.inj heq
    exact Fifo.sleep hwf hsleep
  | sleepReturn =>
    obtain ⟨rfl, rfl⟩ := Prod.mk.inj (Option.some.inj hexec)
    exact .of_wellFormed hwf.threadSleepReturn rfl (by simp [StateChanges.given])
  | wakeup chan =>
    obtain ⟨rfl, rfl⟩ := Prod.mk.inj (Option.some.inj hexec)
    exact Fifo.wakeup hwf

theorem Fifo.run (hwf : s.WellFormed s.readyQueue) {trace : List (SchedOp χ × StateChanges)}
    (hrun : fifoMachine.Run Machine.anyStep s trace t) : s.Fifo (stateChanges trace) t := by
  induction hrun with
  | start => exact .refl hwf
  | extend prior _ realized ih =>
    have hstep := ih.trans (Fifo.step ih.wellFormed realized)
    simpa [stateChanges] using hstep

end Wakeup

/-- **First in, first out.** Threads are switched to in the order in which they became ready,
the threads woken by one call in increasing order; so the thread at position `i` of the ready
queue is the one chosen by the `i + 1`-st switch.  With `n` threads in the ready queue, `n + 1`
yields restore the running thread and the queue. -/
theorem scheduling_fifo [DecidableEq χ] (hwf : s.WellFormed s.readyQueue) :
    (∀ (trace : List (SchedOp χ × StateChanges)) (t : Sched χ),
      fifoMachine.Run Machine.anyStep s trace t → t.state = (stateChanges trace).replay s.state ∧
      s.readyQueue ++ (stateChanges trace).given .ready =
        (stateChanges trace).given .run ++ t.readyQueue ∧
      (∀ i p, s.readyQueue[i]? = some p → i < ((stateChanges trace).given .run).length →
        ((stateChanges trace).given .run)[i]? = some p) ∧
      ∀ chan u changes, fifoMachine.exec t (.wakeup chan) = some (u, changes) →
        (changes.given .ready).Pairwise (· < ·)) ∧
    (threadYield^[s.readyQueue.length + 1] s).curid = s.curid ∧
    (threadYield^[s.readyQueue.length + 1] s).readyQueue = s.readyQueue := by
  refine ⟨fun trace t hrun => ?_, ?_⟩
  · have h := Fifo.run hwf hrun
    refine ⟨h.state_eq, h.order, fun i p hi hlt => ?_, ?_⟩
    · obtain ⟨hpos, -⟩ := List.getElem?_eq_some_iff.mp hi
      calc ((stateChanges trace).given .run)[i]?
          = ((stateChanges trace).given .run ++ t.readyQueue)[i]? :=
            (List.getElem?_append_left hlt).symm
        _ = (s.readyQueue ++ (stateChanges trace).given .ready)[i]? := by rw [h.order]
        _ = some p := by rw [List.getElem?_append_left hpos, hi]
    · rintro chan u changes hexec
      obtain ⟨-, rfl⟩ := Prod.mk.inj (Option.some.inj hexec)
      rw [(given_ready_map _).1]
      exact woken_sorted t chan
  · have hline := (iterate_threadYield hwf (s.readyQueue.length + 1)).2
    rw [← List.length_cons, List.rotate_length] at hline
    exact List.cons_eq_cons.mp hline

def twoReady : Sched Unit := (threadInit.threadSpawn 1).threadSpawn 2

theorem scheduling_fifo_of_twoReady :
    (∃ t, fifoMachine.Run Machine.anyStep twoReady
      [(.yield, [(0, .ready), (1, .run)]), (.sleep (), [(1, .sleep), (2, .run)]),
        (.sleep (), [(2, .sleep), (0, .run)]), (.wakeup (), [(1, .ready), (2, .ready)])] t ∧
      twoReady.readyQueue ++ [0, 1, 2] = [1, 2, 0] ++ t.readyQueue) ∧
    (threadYield^[3] twoReady).readyQueue = [1, 2] := by
  have hwf : twoReady.WellFormed [1, 2] :=
    (wellFormed_threadInit.threadSpawn (by decide) rfl).threadSpawn (by decide) rfl
  have hq : twoReady.readyQueue = [1, 2] := hwf.toQueueOk.readyQueue_eq
  have heval : ∃ r ∈ fifoMachine.runAll twoReady [.yield, .sleep (), .sleep (), .wakeup ()],
      r.2 = [[(0, .ready), (1, .run)], [(1, .sleep), (2, .run)], [(2, .sleep), (0, .run)],
        [(1, .ready), (2, .ready)]] := by
    decide +kernel
  obtain ⟨⟨t, _⟩, hrunAll, rfl⟩ := heval
  have hrun := Machine.run_of_runAll (fun _ _ _ => trivial) hrunAll
  obtain ⟨hruns, -, hqueue⟩ := scheduling_fifo (hq.symm ▸ hwf)
  rw [hq] at hqueue
  exact ⟨⟨t, hrun, (hruns _ _ hrun).2.1⟩, hqueue⟩

end Sched

end MCertikos.Thread
