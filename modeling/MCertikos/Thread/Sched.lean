/-
# Thread table, thread queues and the scheduler entry points

`PTCBIntro` stores a state word, two link indices, a sleep channel and the pending signals of each
thread, and `PTQueueIntro` a head and a tail for each queue.
-/

import MCertikos.Math.LinkedQueue
import Mathlib.Data.Int.Notation

namespace MCertikos.Thread

open Math Function

universe u

def numIds : ℕ := 64

def nsig : ℤ := 32

def sigkill : ℤ := 9

inductive TState
  | ready | run | sleep | dead
  deriving DecidableEq, Repr

inductive Errno
  | succ | invalPid | invalSignum
  deriving DecidableEq, Repr

/-- The fields of the TCBs and thread queues that scheduling uses. -/
structure Sched (χ : Type u) where
  state : ℕ → TState
  prev : ℕ → ℕ
  next : ℕ → ℕ
  channel : ℕ → Option χ
  pendingSignals : ℕ → BitVec 32
  head : ℕ → ℕ
  tail : ℕ → ℕ
  curid : ℕ

namespace Sched

variable {χ : Type u} (s : Sched χ)

/-- The state `thread_init` documents: every thread dead and unlinked, every
queue empty, and the boot thread 0 running. -/
def threadInit : Sched χ where
  state := update (fun _ => .dead) 0 .run
  prev _ := numIds
  next _ := numIds
  channel _ := none
  pendingSignals _ := 0
  head _ := numIds
  tail _ := numIds
  curid := 0

/-! ## Field updates -/

def tcbSetState (pid : ℕ) (state : TState) : Sched χ :=
  { s with state := update s.state pid state }

def tcbSetPrev (pid prev : ℕ) : Sched χ :=
  { s with prev := update s.prev pid prev }

def tcbSetNext (pid next : ℕ) : Sched χ :=
  { s with next := update s.next pid next }

def tcbSetChan (pid : ℕ) (chan : Option χ) : Sched χ :=
  { s with channel := update s.channel pid chan }

def tcbSetPendingSignals (pid : ℕ) (signals : BitVec 32) : Sched χ :=
  { s with pendingSignals := update s.pendingSignals pid signals }

def tcbAddPendingSignal (pid : ℕ) (signum : ℤ) : Sched χ :=
  if 0 ≤ signum ∧ signum < nsig then
    s.tcbSetPendingSignals pid (s.pendingSignals pid ||| 1#32 <<< signum.toNat)
  else s

def tqueueSetHead (chid head : ℕ) : Sched χ :=
  { s with head := update s.head chid head }

def tqueueSetTail (chid tail : ℕ) : Sched χ :=
  { s with tail := update s.tail chid tail }

def setCurid (pid : ℕ) : Sched χ := { s with curid := pid }

/-! ## Thread queues -/

def tqueueEnqueue (chid pid : ℕ) : Sched χ :=
  let tail := s.tail chid
  if tail = numIds then
    (((s.tcbSetPrev pid numIds).tcbSetNext pid numIds).tqueueSetHead chid pid).tqueueSetTail
      chid pid
  else
    (((s.tcbSetNext tail pid).tcbSetPrev pid tail).tcbSetNext pid numIds).tqueueSetTail chid pid

def tqueueDequeue (chid : ℕ) : ℕ × Sched χ :=
  let head := s.head chid
  if head = numIds then (numIds, s)
  else
    let next := s.next head
    let s' :=
      if next = numIds then (s.tqueueSetHead chid numIds).tqueueSetTail chid numIds
      else (s.tcbSetPrev next numIds).tqueueSetHead chid next
    (head, (s'.tcbSetPrev head numIds).tcbSetNext head numIds)

def tqueueRemove (chid pid : ℕ) : Sched χ :=
  let prev := s.prev pid
  let next := s.next pid
  let s' :=
    if prev = numIds then
      if next = numIds then (s.tqueueSetHead chid numIds).tqueueSetTail chid numIds
      else (s.tcbSetPrev next numIds).tqueueSetHead chid next
    else
      if next = numIds then (s.tcbSetNext prev numIds).tqueueSetTail chid prev
      else
        (if prev ≠ next then s.tcbSetNext prev next else s).tcbSetPrev next prev
  (s'.tcbSetPrev pid numIds).tcbSetNext pid numIds

/-! ## Scheduler entry points -/

def threadSpawn (pid : ℕ) : Sched χ :=
  (s.tcbSetState pid .ready).tqueueEnqueue numIds pid

def kernMainHandoff (pid : ℕ) : Sched χ :=
  ((s.tqueueRemove numIds pid).tcbSetState pid .run).setCurid pid

def threadYield : Sched χ :=
  let s := (s.tcbSetState s.curid .ready).tqueueEnqueue numIds s.curid
  let (newCurPid, s) := s.tqueueDequeue numIds
  (s.tcbSetState newCurPid .run).setCurid newCurPid

def threadExit : Option (Sched χ) :=
  let (newCurPid, s) := s.tqueueDequeue numIds
  if newCurPid = numIds then none
  else some ((s.tcbSetState newCurPid .run).setCurid newCurPid)

/-- `thread_sleep` up to its context switch.  With no ready thread the source
writes to the table entry `numIds`, which does not exist. -/
def threadSleep (chan : χ) : Option (Sched χ) :=
  let s := (s.tcbSetState s.curid .sleep).tcbSetChan s.curid (some chan)
  let (newCurPid, s) := s.tqueueDequeue numIds
  if newCurPid = numIds then none
  else some ((s.tcbSetState newCurPid .run).setCurid newCurPid)

def threadSleepReturn : Sched χ := s.tcbSetChan s.curid none

def wakeOne [DecidableEq χ] (chan : χ) (s : Sched χ) (pid : ℕ) : Sched χ :=
  if s.channel pid = some chan ∧ s.state pid = .sleep then
    ((s.tcbSetState pid .ready).tcbSetChan pid none).tqueueEnqueue numIds pid
  else s

def threadWakeup [DecidableEq χ] (s : Sched χ) (chan : χ) : Sched χ :=
  (List.range' 1 (numIds - 1)).foldl (wakeOne chan) s

def terminateCurrent : Option (Sched χ) :=
  (s.tcbSetState s.curid .dead).threadExit

def KillTarget (pid : ℤ) : Prop :=
  0 ≤ pid ∧ pid < numIds ∧ s.state pid.toNat ≠ .dead

instance (s : Sched χ) (pid : ℤ) : Decidable (s.KillTarget pid) := by
  unfold KillTarget
  infer_instance

def killTarget (pid : ℕ) : Sched χ :=
  ((s.tcbSetState pid .dead).tqueueRemove numIds pid).tcbSetPendingSignals pid 0

def postSignal [DecidableEq χ] (s : Sched χ) (pid : ℕ) (signum : ℤ) : Sched χ :=
  let s := s.tcbAddPendingSignal pid signum
  if s.state pid = .sleep then
    match s.channel pid with
    | none => s
    | some chan => s.threadWakeup chan
  else s

def sysKill [DecidableEq χ] (s : Sched χ) (pid signum : ℤ) : Errno × Sched χ :=
  if signum < 1 ∨ nsig ≤ signum then (.invalSignum, s)
  else if ¬ s.KillTarget pid then (.invalPid, s)
  else if signum = sigkill then (.succ, s.killTarget pid.toNat)
  else (.succ, s.postSignal pid.toNat signum)

end Sched

end MCertikos.Thread
