/-
# The lock of the message queue

The system calls no longer take `msg_lock`, but `thread_sleep` still releases it before it
switches and takes it again when the sleeper runs.
-/

import MCertikos.Ipc.MsgInv

namespace MCertikos.Ipc

open Math Thread

def WokenReturn : Op Call Empty × Output Ret → Prop
  | (.resume, .ret _ _) => True
  | _ => False

def Slept : Op Call Empty × Output Ret → Prop
  | (.call _, .silent) => True
  | (.resume, .silent) => True
  | _ => False

def LockLeft (trace : List (Op Call Empty × Output Ret)) : Prop :=
  ∃ before step after, trace = before ++ step :: after ∧ WokenReturn step ∧
    ∀ later ∈ after, ¬ Slept later

section Trace

variable {past : List (Op Call Empty × Output Ret)} {step : Op Call Empty × Output Ret}

theorem not_lockLeft_nil : ¬ LockLeft [] := by
  rintro ⟨before, step, after, heq, -⟩
  simp at heq

theorem lockLeft_append :
    LockLeft (past ++ [step]) ↔ WokenReturn step ∨ LockLeft past ∧ ¬ Slept step := by
  constructor
  · rintro ⟨before, woken, after, heq, hwoken, hafter⟩
    rcases List.eq_nil_or_concat after with rfl | ⟨init, last, rfl⟩
    · obtain ⟨-, hlast⟩ := List.append_inj' heq rfl
      exact Or.inl (List.singleton_inj.mp hlast ▸ hwoken)
    · have hsplit : past ++ [step] = (before ++ woken :: init) ++ [last] := by simpa using heq
      obtain ⟨rfl, hlast⟩ := List.append_inj' hsplit rfl
      obtain rfl := List.singleton_inj.mp hlast
      refine Or.inr ⟨⟨before, woken, init, rfl, hwoken, fun later hlater => ?_⟩, ?_⟩
      · exact hafter later (by simp [hlater])
      · exact hafter step (by simp)
  · rintro (hwoken | ⟨⟨before, woken, after, rfl, hwoken, hafter⟩, hslept⟩)
    · exact ⟨past, step, [], rfl, hwoken, fun _ h => nomatch h⟩
    · refine ⟨before, woken, after ++ [step], by simp, hwoken, fun later hlater => ?_⟩
      rcases List.mem_append.mp hlater with h | h
      · exact hafter later h
      · exact List.mem_singleton.mp h ▸ hslept

end Trace

section Paths

variable {χ μ : Type*} {env : Env χ μ} {s : Msg μ} {path : Path χ Cont Ret (Msg μ)}

/-- A path that was entered with the lock in some state: it frees the lock if it sleeps and
leaves it alone if it returns. -/
def LockAfter (lock : Bool) (path : Path χ Cont Ret (Msg μ)) : Prop :=
  match path.stop with
  | .ret _ => path.shared.lock = lock
  | .block _ _ => path.shared.lock = false

theorem msgEnqueue_lock (s : Msg μ) (pid : ℕ) : (s.msgEnqueue pid).lock = s.lock := by
  unfold Msg.msgEnqueue
  split <;> rfl

theorem msgRemove_lock (s : Msg μ) (pid : ℕ) : (s.msgRemove pid).lock = s.lock := by
  unfold Msg.msgRemove
  dsimp only
  split <;> split <;> rfl

theorem lockAfter_sendLoop {wakes : List χ} {pid : ℕ}
    (h : s.sendLoop env wakes pid = some path) : LockAfter s.lock path := by
  obtain ⟨block, -, rfl⟩ := Option.map_eq_some_iff.mp h
  split <;> rfl

theorem lockAfter_sysSyncRecv {pid sendPid addr length : ℕ}
    (h : s.sysSyncRecv env pid sendPid addr length = some path) : LockAfter s.lock path := by
  obtain ⟨block, -, rfl⟩ := Option.map_eq_some_iff.mp h
  split
  · rfl
  · exact msgRemove_lock _ _

theorem lockAfter_call {pid : ℕ} {args : Call} (h : (ipcMonitor env).call pid args s = some path) :
    LockAfter s.lock path := by
  cases args with
  | send recvPid addr length =>
    have hpath := lockAfter_sendLoop h
    rwa [msgEnqueue_lock] at hpath
  | recv sendPid addr length => exact lockAfter_sysSyncRecv h

theorem lockAfter_resume {pid : ℕ} {cont : Cont}
    (h : (ipcMonitor env).resume pid cont s = some path) : LockAfter true path := by
  obtain ⟨taken, hacquire, hloop⟩ := Option.bind_eq_some_iff.mp h
  have hlock : taken.lock = true := by
    unfold Msg.acquire at hacquire
    split at hacquire
    · cases hacquire
    · cases hacquire
      rfl
  rw [← hlock]
  cases cont with
  | send curPid => exact lockAfter_sendLoop hloop
  | recv curPid sendPid addr length => exact lockAfter_sysSyncRecv hloop

variable [DecidableEq χ]

theorem lock_of_finish {k next : Kernel χ Cont (Msg μ)} {out : Output Ret} {lock : Bool}
    (hpath : LockAfter lock path) (hfinish : k.finish path = some (next, out)) :
    (∃ pid value, out = .ret pid value ∧ next.shared.lock = lock) ∨
      out = .silent ∧ next.shared.lock = false := by
  obtain ⟨value, hstop, rfl, rfl⟩ | ⟨chan, cont, sched, hstop, rfl, -, rfl⟩ :=
    Kernel.finish_cases hfinish
  · simp only [LockAfter, hstop] at hpath
    exact Or.inl ⟨_, value, rfl, hpath⟩
  · simp only [LockAfter, hstop] at hpath
    exact Or.inr ⟨rfl, hpath⟩

def LockTraced (trace : List (Op Call Empty × Output Ret)) (k : Kernel χ Cont (Msg μ)) : Prop :=
  k.shared.lock = true ↔ LockLeft trace

theorem lockTraced_step {k next : Kernel χ Cont (Msg μ)} {op : Op Call Empty} {out : Output Ret}
    {past : List (Op Call Empty × Output Ret)} (h : LockTraced past k)
    (hstep : (ipcMonitor env).Step k op next out) : LockTraced (past ++ [(op, out)]) next := by
  unfold LockTraced at h ⊢
  rw [lockLeft_append]
  cases hstep with
  | spawn | handoff | yield | kill | terminate => simpa [WokenReturn, Slept] using h
  | @intr irq => cases irq
  | call user hpath hfinish =>
    obtain ⟨pid, value, rfl, hlock⟩ | ⟨rfl, hlock⟩ :=
      lock_of_finish (lockAfter_call hpath) hfinish
    · simpa [WokenReturn, Slept, hlock] using h
    · simp [WokenReturn, Slept, hlock]
  | resume hcont hpath hfinish =>
    obtain ⟨pid, value, rfl, hlock⟩ | ⟨rfl, hlock⟩ :=
      lock_of_finish (lockAfter_resume hpath) hfinish
    · simp [WokenReturn, hlock]
    · simp [WokenReturn, Slept, hlock]

theorem lockTraced_of_run {mem : μ} {trace : List (Op Call Empty × Output Ret)}
    {k : Kernel χ Cont (Msg μ)}
    (run : (ipcMonitor env).machine.Run Machine.anyStep (Kernel.boot (Msg.ipcInit mem)) trace k) :
    LockTraced trace k := by
  refine run.invariant_trace ?_ fun h _ hexec => lockTraced_step h (Monitor.step_of_exec hexec)
  simpa [LockTraced, Kernel.boot, Msg.ipcInit] using not_lockLeft_nil

/-- **Who leaves `msg_lock` held.** In every state of every run, with a process in user mode
or with a sleeper about to go on, the lock is free, and `spinlock_acquire` of a resumed
sleeper ends, exactly if no call that had slept has returned since the last call that went
to sleep. -/
theorem msgLock_free_iff {env : Env χ μ} {mem : μ} {trace : List (Op Call Empty × Output Ret)}
    {k : Kernel χ Cont (Msg μ)}
    (run : (ipcMonitor env).machine.Run Machine.anyStep (Kernel.boot (Msg.ipcInit mem)) trace k) :
    (k.InUser → (k.shared.lock = false ↔ ¬ LockLeft trace)) ∧
      ∀ cont, k.cont k.sched.curid = some cont → (k.shared.acquire ≠ none ↔ ¬ LockLeft trace) := by
  have hlock : k.shared.lock = true ↔ LockLeft trace := lockTraced_of_run run
  refine ⟨fun _ => ?_, fun cont _ => ?_⟩
  · rw [← hlock, Bool.not_eq_true]
  · rw [← hlock]
    unfold Msg.acquire
    split <;> simp_all

end Paths

def plainEnv : Env ℕ Unit where
  ipcCopy _ _ _ _ _ mem := mem
  sendCv pid := 2 * pid
  recvCv pid := 2 * pid + 1

def twoSenders : List (Op Call Empty) :=
  [.spawn 1, .spawn 2, .spawn 3, .handoff 1, .call (.send 2 100 8), .yield,
    .call (.send 2 100 8)]

def firstReturned : List (Op Call Empty) :=
  twoSenders ++ [.call (.recv 1 200 8), .call (.recv 3 200 8), .yield, .resume]

theorem msgLock_free_of_two_senders :
    ∃ (k : Kernel ℕ Cont (Msg Unit)) (trace : List (Op Call Empty × Output Ret)),
      (ipcMonitor plainEnv).machine.Run Machine.anyStep (Kernel.boot (Msg.ipcInit ())) trace k ∧
      k.shared.lock = false ∧ ¬ LockLeft trace := by
  have hfinal : ((ipcMonitor plainEnv).machine.runAll (Kernel.boot (Msg.ipcInit ()))
      twoSenders).map (fun r => (decide r.1.InUser, r.1.shared.lock)) = some (true, false) := by
    decide +kernel
  obtain ⟨⟨k, outs⟩, hall, heq⟩ := Option.map_eq_some_iff.mp hfinal
  obtain ⟨huser, hlock⟩ := Prod.mk.inj heq
  have hrun : (ipcMonitor plainEnv).machine.Run Machine.anyStep _ _ k :=
    Machine.run_of_runAll (fun _ _ _ => trivial) hall
  exact ⟨k, _, hrun, hlock, ((msgLock_free_iff hrun).1 (of_decide_eq_true huser)).mp hlock⟩

/-- Process 1 returns to user mode with the lock held.  It yields, and process 3 goes on in
`thread_sleep`, where it spins on the lock forever. -/
theorem msgLock_held_after_return :
    ∃ (k next : Kernel ℕ Cont (Msg Unit)) (trace : List (Op Call Empty × Output Ret))
      (out : Output Ret),
      (ipcMonitor plainEnv).machine.Run Kernel.ProcessStep (Kernel.boot (Msg.ipcInit ())) trace k ∧
      k.InUser ∧ k.shared.lock = true ∧
      (ipcMonitor plainEnv).exec k .yield = some (next, out) ∧
      (∃ cont, next.cont next.sched.curid = some cont) ∧ next.shared.acquire = none := by
  have hfinal : (((ipcMonitor plainEnv).machine.guarded Kernel.ProcessStep).runAll
      (Kernel.boot (Msg.ipcInit ())) firstReturned).bind (fun r =>
        ((ipcMonitor plainEnv).exec r.1 .yield).map fun next =>
          (decide r.1.InUser, r.1.shared.lock, (next.1.cont next.1.sched.curid).isSome,
            next.1.shared.lock)) = some (true, true, true, true) := by
    decide +kernel
  obtain ⟨⟨k, outs⟩, hall, hnext⟩ := Option.bind_eq_some_iff.mp hfinal
  obtain ⟨⟨next, out⟩, hyield, heq⟩ := Option.map_eq_some_iff.mp hnext
  obtain ⟨huser, hlock, hcont, hnextLock⟩ : decide k.InUser = true ∧ k.shared.lock = true ∧
      (next.cont next.sched.curid).isSome = true ∧ next.shared.lock = true := by
    simpa only [Prod.mk.injEq] using heq
  refine ⟨k, next, _, out, Machine.run_of_guarded hall, of_decide_eq_true huser, hlock, hyield,
    Option.isSome_iff_exists.mp hcont, ?_⟩
  rw [Msg.acquire, if_pos hnextLock]

end MCertikos.Ipc
