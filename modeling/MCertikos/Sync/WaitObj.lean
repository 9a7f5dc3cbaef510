/-
# Wait objects

The two pools of `waitobj.c`: sixteen wait objects and thirty-two event sources, cross-linked by
pointers into the pools.
-/

import MCertikos.Thread.Kernel
import MCertikos.Math.Chain

namespace MCertikos.Sync

open Math Thread

def maxWaitObjects : ℕ := 16

def maxEventSources : ℕ := 32

instance : NeZero maxWaitObjects := ⟨by decide⟩

instance : NeZero maxEventSources := ⟨by decide⟩

def eventTimer : ℤ := 1

def eventKeyboard : ℤ := 2

def eventSoftware : ℤ := 3

abbrev Wobj := Fin maxWaitObjects

abbrev Slot := Fin maxEventSources

@[ext] structure EventSource where
  id : ℤ
  type : ℤ
  ready : Bool
  periodMs : BitVec 32
  nextFireTick : BitVec 32
  parent : Option Wobj
  next : Option Slot

@[ext] structure WaitObject where
  wid : ℤ
  ownerPid : ℕ
  inUse : Bool
  sources : Option Slot

@[ext] structure Pools where
  ticks : BitVec 32
  wobjs : Wobj → WaitObject
  esrc : Slot → EventSource

namespace Pools

variable (s : Pools)

def waitobjInit : Pools where
  ticks := 0
  wobjs w := ⟨w, numIds, false, none⟩
  esrc _ := ⟨0, 0, false, 0, 0, none, none⟩

def next (i : Slot) : Option Slot := (s.esrc i).next

def setWobj (w : Wobj) (object : WaitObject) : Pools :=
  { s with wobjs := Function.update s.wobjs w object }

def setSource (i : Slot) (source : EventSource) : Pools :=
  { s with esrc := Function.update s.esrc i source }

/-! ## Creating objects and registering sources -/

def allocSource : Option Slot :=
  (List.finRange maxEventSources).find? fun i =>
    decide ((s.esrc i).parent = none ∧ (s.esrc i).id = 0)

def getWo (wid : ℤ) : Option Wobj :=
  if h : 0 ≤ wid ∧ wid < maxWaitObjects then
    let w : Wobj := ⟨wid.toNat, by omega⟩
    if (s.wobjs w).inUse then some w else none
  else none

def waitobjCreate (ownerPid : ℕ) : ℤ × Pools :=
  match (List.finRange maxWaitObjects).find? fun w => !(s.wobjs w).inUse with
  | some w =>
    (w, s.setWobj w { s.wobjs w with inUse := true, ownerPid := ownerPid, sources := none })
  | none => (-1, s)

def newSource (w : Wobj) (i : Slot) (type : ℤ) (argMs : BitVec 32) : EventSource :=
  let periodMs := if type = eventTimer then (if argMs ≠ 0 then argMs else 1) else 0
  { id := i + 1
    type := type
    ready := false
    periodMs := periodMs
    nextFireTick := if type = eventTimer then s.ticks + periodMs else 0
    parent := some w
    next := (s.wobjs w).sources }

def waitobjAdd (ownerPid : ℕ) (wid type : ℤ) (argMs : BitVec 32) : ℤ × Pools :=
  match s.getWo wid with
  | none => (-1, s)
  | some w =>
    if (s.wobjs w).ownerPid ≠ ownerPid then (-1, s)
    else
      match s.allocSource with
      | none => (-1, s)
      | some i =>
        ((s.newSource w i type argMs).id,
          (s.setSource i (s.newSource w i type argMs)).setWobj w
            { s.wobjs w with sources := some i })

/-! ## Raising events -/

def eventNotify (i : Slot) : Pools × List Wobj :=
  match (s.esrc i).parent with
  | none => (s, [])
  | some w => (s.setSource i { s.esrc i with ready := true }, [w])

def waitobjSignalSource (ownerPid : ℕ) (sourceId : ℤ) : ℤ × Pools × List Wobj :=
  if h : sourceId < 1 ∨ sourceId > maxEventSources then (-1, s, [])
  else
    let i : Slot := ⟨(sourceId - 1).toNat, by omega⟩
    if (s.esrc i).id ≠ sourceId ∨
        (s.esrc i).parent.map (fun w => (s.wobjs w).ownerPid) ≠ some ownerPid then (-1, s, [])
    else if (s.esrc i).type ≠ eventSoftware then (-1, s, [])
    else (0, s.eventNotify i)

/-- The loop body `waitobj_timer_tick` and `waitobj_console_input_notify` share:
raise a source that is registered, not ready and due. -/
def notifyOne (due : EventSource → Bool) (acc : Pools × List Wobj) (i : Slot) : Pools × List Wobj :=
  let source := acc.1.esrc i
  if source.parent = none ∨ source.ready ∨ ¬ due source then acc
  else ((acc.1.eventNotify i).1, acc.2 ++ (acc.1.eventNotify i).2)

def notifyAll (due : EventSource → Bool) (s : Pools) : Pools × List Wobj :=
  (List.finRange maxEventSources).foldl (notifyOne due) (s, [])

def timerDue (now : BitVec 32) (source : EventSource) : Bool :=
  decide (source.type = eventTimer ∧ source.nextFireTick ≤ now)

def keyboardDue (source : EventSource) : Bool := decide (source.type = eventKeyboard)

def waitobjTimerTick : Pools × List Wobj := s.notifyAll (timerDue s.ticks)

def waitobjOnTimerIrq : Pools × List Wobj :=
  { s with ticks := s.ticks + 1 }.waitobjTimerTick

def waitobjConsoleInputNotify : Pools × List Wobj := s.notifyAll keyboardDue

/-! ## Waiting -/

/-- `first_ready_source` from a node on.  The outer `none` is a loop that never
ends: more nodes than the pool has. -/
def firstReadyFrom (s : Pools) : ℕ → Option Slot → Option (Option Slot)
  | _, none => some none
  | 0, some _ => none
  | fuel + 1, some i =>
    if (s.esrc i).ready then some (some i) else s.firstReadyFrom fuel (s.next i)

def firstReadySource (w : Wobj) : Option (Option Slot) :=
  s.firstReadyFrom maxEventSources (s.wobjs w).sources

def rearm (now : BitVec 32) (source : EventSource) : EventSource :=
  { source with ready := false, nextFireTick := now + source.periodMs }

def rescheduleOne (i : Slot) : Pools :=
  if (s.esrc i).type ≠ eventTimer then s else s.setSource i (rearm s.ticks (s.esrc i))

def rescheduleFrom : ℕ → Pools → Option Slot → Option Pools
  | _, s, none => some s
  | 0, _, some _ => none
  | fuel + 1, s, some i => rescheduleFrom fuel (s.rescheduleOne i) ((s.rescheduleOne i).next i)

def rescheduleAllTimerSources (w : Wobj) : Option Pools :=
  rescheduleFrom maxEventSources s (s.wobjs w).sources

inductive WaitStep
  | delivered (sid : ℤ)
  | timeout
  | sleep

def waitIteration (w : Wobj) (useTimeout : Bool) (deadline : BitVec 32) :
    Option (Pools × WaitStep) :=
  (s.firstReadySource w).bind fun found =>
    -- A negative id would be taken for "no ready source".
    match found.filter fun i => decide (0 ≤ (s.esrc i).id) with
    | some i =>
      ((s.setSource i { s.esrc i with ready := false }).rescheduleAllTimerSources w).map
        fun s' => (s', .delivered (s.esrc i).id)
    | none => some (s, if useTimeout ∧ deadline ≤ s.ticks then .timeout else .sleep)

end Pools

/-! ## The system calls and interrupts -/

/-- What the loop of a sleeping wait goes on with. -/
structure WaitCont where
  wo : Wobj
  useTimeout : Bool
  deadline : BitVec 32

structure WaitRet where
  rc : ℤ
  outSrcId : Option ℤ
  deriving DecidableEq

inductive WaitCall
  | create
  | add (wid type : ℤ) (argMs : BitVec 32)
  | wait (wid : ℤ) (timeoutMs : BitVec 32)
  | signal (sourceId : ℤ)

inductive WaitIrq
  | timer
  | console

namespace Pools

def waitLoop (s : Pools) (cont : WaitCont) : Option (Path Wobj WaitCont WaitRet Pools) :=
  (s.waitIteration cont.wo cont.useTimeout cont.deadline).map fun (s, step) =>
    ⟨s, [],
      match step with
      | .delivered sid => .ret ⟨0, some sid⟩
      | .timeout => .ret ⟨-1, some (-1)⟩
      | .sleep => .block cont.wo cont⟩

def waitobjWait (s : Pools) (ownerPid : ℕ) (wid : ℤ) (timeoutMs : BitVec 32) :
    Option (Path Wobj WaitCont WaitRet Pools) :=
  match s.getWo wid with
  | none => some ⟨s, [], .ret ⟨-2, none⟩⟩
  | some w =>
    if (s.wobjs w).ownerPid ≠ ownerPid then some ⟨s, [], .ret ⟨-2, none⟩⟩
    else s.waitLoop ⟨w, decide (timeoutMs ≠ 0), s.ticks + timeoutMs⟩

end Pools

def waitMonitor : Monitor Wobj WaitCont WaitCall WaitIrq WaitRet Pools where
  call pid args s :=
    match args with
    | .create =>
      let (rc, s) := s.waitobjCreate pid
      some ⟨s, [], .ret ⟨rc, none⟩⟩
    | .add wid type argMs =>
      let (rc, s) := s.waitobjAdd pid wid type argMs
      some ⟨s, [], .ret ⟨rc, none⟩⟩
    | .wait wid timeoutMs => s.waitobjWait pid wid timeoutMs
    | .signal sourceId =>
      let (rc, s, wakes) := s.waitobjSignalSource pid sourceId
      some ⟨s, wakes, .ret ⟨rc, none⟩⟩
  resume _ cont s := s.waitLoop cont
  intr irq s :=
    match irq with
    | .timer => some s.waitobjOnTimerIrq
    | .console => some s.waitobjConsoleInputNotify

end MCertikos.Sync
