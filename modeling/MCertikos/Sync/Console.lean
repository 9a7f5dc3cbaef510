/-
# Keyboard sources and the console

`cons_intr` drains a device into the ring buffer of the console and then notifies the keyboard
sources, whether or not the device had a character.
-/

import MCertikos.Sync.PoolRuns

namespace MCertikos.Sync

open Math Thread

def consoleBufferSize : ℕ := 512

structure ConsoleBuffer where
  buf : ℕ → BitVec 8
  rpos : ℕ
  wpos : ℕ

namespace ConsoleBuffer

def consInit : ConsoleBuffer := ⟨fun _ => 0, 0, 0⟩

def advance (pos : ℕ) : ℕ := if pos + 1 = consoleBufferSize then 0 else pos + 1

def store (cons : ConsoleBuffer) (c : BitVec 8) : ConsoleBuffer :=
  { cons with buf := Function.update cons.buf cons.wpos c, wpos := advance cons.wpos }

/-- The loop of `cons_intr`, with the number of characters it stored.  A device that gives
no more results has no data. -/
def consIntrLoop : ConsoleBuffer → List (BitVec 32) → ConsoleBuffer × ℕ
  | cons, [] => (cons, 0)
  | cons, c :: results =>
    if c = -1 then (cons, 0)
    else if c = 0 then consIntrLoop cons results
    else
      let (cons, stored) := consIntrLoop (cons.store (c.setWidth 8)) results
      (cons, stored + 1)

def take (cons : ConsoleBuffer) : BitVec 8 × ConsoleBuffer :=
  if cons.rpos ≠ cons.wpos then
    (cons.buf cons.rpos, { cons with rpos := advance cons.rpos })
  else (0, cons)

def characters (results : List (BitVec 32)) : List (BitVec 8) :=
  ((results.takeWhile (· ≠ -1)).filter (· ≠ 0)).map (BitVec.setWidth 8)

theorem characters_cons {c : BitVec 32} (hend : c ≠ -1) (hzero : c ≠ 0)
    (results : List (BitVec 32)) :
    characters (c :: results) = c.setWidth 8 :: characters results := by
  have htake : (c :: results).takeWhile (· ≠ -1) = c :: results.takeWhile (· ≠ -1) :=
    List.takeWhile_cons_of_pos (decide_eq_true hend)
  have hfilter := List.filter_cons_of_pos (p := fun x : BitVec 32 => decide (x ≠ 0))
    (l := results.takeWhile (· ≠ -1)) (decide_eq_true hzero)
  rw [characters, htake, hfilter, List.map_cons]
  rfl

theorem consIntrLoop_eq (cons : ConsoleBuffer) (results : List (BitVec 32)) :
    cons.consIntrLoop results =
      ((characters results).foldl store cons, (characters results).length) := by
  induction results generalizing cons with
  | nil => rfl
  | cons c results ih =>
    rw [consIntrLoop]
    by_cases hend : c = -1
    · simp [hend, characters]
    · rw [if_neg hend]
      by_cases hzero : c = 0
      · rw [if_pos hzero, ih]
        simp [hzero, characters]
      · rw [if_neg hzero, ih, characters_cons hend hzero]
        rfl

end ConsoleBuffer

structure Console where
  cons : ConsoleBuffer
  pools : Pools

/-- A call of `cons_intr`: what the device gave, the number of characters the call stored,
and the states around the call. -/
structure ConsCall where
  results : List (BitVec 32)
  before : Console
  stored : ℕ
  after : Console

namespace Console

def init : Console := ⟨.consInit, .waitobjInit⟩

@[irreducible] def consIntr (s : Console) (results : List (BitVec 32)) : ConsCall :=
  let drained := s.cons.consIntrLoop results
  ⟨results, s, drained.2, ⟨drained.1, s.pools.waitobjConsoleInputNotify.1⟩⟩

end Console

/-- What a processor does to the console and the wait objects. -/
inductive ConsoleOp
  /-- `keyboard_intr`, from the interrupt. -/
  | keyboardIntr (results : List (BitVec 32))
  /-- `serial_intr`, from the interrupt. -/
  | serialIntr (serialExists : Bool) (results : List (BitVec 32))
  | consGetc (serialExists : Bool) (serial keyboard : List (BitVec 32))
  | waitCall (pid : ℕ) (args : WaitCall)
  | waitResume (pid : ℕ) (cont : WaitCont)
  | timerIrq

namespace Console

def serialIntr (s : Console) (serialExists : Bool) (results : List (BitVec 32)) :
    List ConsCall × Console :=
  if serialExists then ([s.consIntr results], (s.consIntr results).after) else ([], s)

def poolExec (s : Console) (op : Pools.PoolOp) : Option (Console × List ConsCall) :=
  (waitMonitor.dataMachine.exec s.pools op).map fun (pools, _) => (⟨s.cons, pools⟩, [])

def exec (s : Console) : ConsoleOp → Option (Console × List ConsCall)
  | .keyboardIntr results => some ((s.consIntr results).after, [s.consIntr results])
  | .serialIntr serialExists results =>
    let serial := s.serialIntr serialExists results
    some (serial.2, serial.1)
  | .consGetc serialExists serial keyboard =>
    let polled := s.serialIntr serialExists serial
    let call := polled.2.consIntr keyboard
    some (⟨call.after.cons.take.2, call.after.pools⟩, polled.1 ++ [call])
  | .waitCall pid args => s.poolExec (.call pid args)
  | .waitResume pid cont => s.poolExec (.resume pid cont)
  | .timerIrq => s.poolExec (.intr .timer)

def machine : Machine Console ConsoleOp (List ConsCall) := ⟨exec⟩

structure Raised (i : Slot) (s t : Console) : Prop where
  keyboard : (t.pools.esrc i).type = eventKeyboard
  low : (s.pools.esrc i).ready = false
  high : (t.pools.esrc i).ready = true

end Console

/-! ## What raises a keyboard source -/

namespace Pools

variable {s t : Pools} {lists : Wobj → List Slot} {op : PoolOp} {effect : PoolEffect} {i : Slot}

theorem Iteration.ready_of_ready {list : List Slot} {cont : WaitCont}
    {stop : Stop Wobj WaitCont WaitRet} (hiter : s.Iteration list cont t stop)
    (hready : (t.esrc i).ready = true) : (s.esrc i).ready = true := by
  cases hiter with
  | timeout hnone hdue | sleep hnone hnot => exact hready
  | delivered hfind =>
    rw [deliver_esrc] at hready
    split at hready
    · exact absurd hready Bool.false_ne_true
    · split at hready
      · exact absurd hready Bool.false_ne_true
      · exact hready

theorem PoolStep.ready_of_keyboard (hstep : PoolStep lists s op t effect)
    (hop : op ≠ .intr .console) (htype : (t.esrc i).type = eventKeyboard)
    (hready : (t.esrc i).ready = true) : (s.esrc i).ready = true := by
  cases hstep with
  | createFull | addFailed | waitInvalid | signalFailed => exact hready
  | create huse => exact hready
  | @add pid w type argMs j huse howner hfree =>
    by_cases heq : i = j
    · simp [setSource, setWobj, heq, newSource] at hready
    · simpa [setSource, setWobj, heq] using hready
  | wait huse howner hiter => exact hiter.ready_of_ready hready
  | resume hiter => exact hiter.ready_of_ready hready
  | @signal pid j w hparent howner hsoftware =>
    by_cases heq : i = j
    · subst heq
      have hsame := (sameShape_raise (s := s) (i := i) (by simp [hparent])).type i
      rw [hsame] at htype
      exact absurd (htype.symm.trans hsoftware) (by decide)
    · simpa [setSource, heq] using hready
  | timer =>
    rw [notifyAll_esrc] at hready htype
    split_ifs at hready htype with hfires
    · have hdue := of_decide_eq_true hfires.2.2
      exact absurd (htype.symm.trans hdue.1) (by decide)
    · exact hready
  | console => exact absurd rfl hop

end Pools

namespace Console

variable {s t : Console} {op : ConsoleOp} {calls : List ConsCall} {i : Slot}

def Linked (s : Console) : Prop := ∃ lists, s.pools.Represents lists

theorem consIntr_pools (s : Console) (results : List (BitVec 32)) :
    (s.consIntr results).after.pools = (s.pools.notifyAll Pools.keyboardDue).1 := by
  simp only [consIntr, Pools.waitobjConsoleInputNotify]

theorem consIntr_before (s : Console) (results : List (BitVec 32)) :
    (s.consIntr results).before = s := by
  simp only [consIntr]

theorem consIntr_results (s : Console) (results : List (BitVec 32)) :
    (s.consIntr results).results = results := by
  simp only [consIntr]

theorem linked_consIntr (h : s.Linked) (results : List (BitVec 32)) :
    (s.consIntr results).after.Linked := by
  obtain ⟨lists, hrep⟩ := h
  refine ⟨lists, ?_⟩
  rw [consIntr_pools]
  exact hrep.of_sameShape (Pools.sameShape_notifyAll _ s.pools)

theorem linked_serialIntr (h : s.Linked) (serialExists : Bool) (results : List (BitVec 32)) :
    (s.serialIntr serialExists results).2.Linked := by
  cases serialExists with
  | false => exact h
  | true => exact linked_consIntr h results

theorem poolExec_cases {op : Pools.PoolOp} (h : s.Linked)
    (hexec : s.poolExec op = some (t, calls)) :
    ∃ lists effect, s.pools.Represents lists ∧ Pools.PoolStep lists s.pools op t.pools effect := by
  obtain ⟨lists, hrep⟩ := h
  obtain ⟨⟨pools, effect⟩, hpool, heq⟩ := Option.map_eq_some_iff.mp hexec
  obtain ⟨rfl, -⟩ := Prod.mk.inj heq
  exact ⟨lists, effect, hrep, Pools.poolStep_of_exec hrep hpool⟩

theorem linked_poolExec (op : Pools.PoolOp) (h : s.Linked)
    (hexec : s.poolExec op = some (t, calls)) : t.Linked := by
  obtain ⟨lists, effect, hrep, hstep⟩ := poolExec_cases h hexec
  obtain ⟨lists', hrep', -⟩ := hrep.step hstep
  exact ⟨lists', hrep'⟩

theorem Linked.step (h : s.Linked) (hexec : machine.exec s op = some (t, calls)) : t.Linked := by
  cases op with
  | keyboardIntr results =>
    simp only [machine, exec, Option.some.injEq, Prod.mk.injEq] at hexec
    rw [← hexec.1]
    exact linked_consIntr h results
  | serialIntr serialExists results =>
    simp only [machine, exec, Option.some.injEq, Prod.mk.injEq] at hexec
    rw [← hexec.1]
    exact linked_serialIntr h serialExists results
  | consGetc serialExists serial keyboard =>
    simp only [machine, exec, Option.some.injEq, Prod.mk.injEq] at hexec
    rw [← hexec.1]
    exact linked_consIntr (linked_serialIntr h serialExists serial) keyboard
  | waitCall pid args => exact linked_poolExec (.call pid args) h hexec
  | waitResume pid cont => exact linked_poolExec (.resume pid cont) h hexec
  | timerIrq => exact linked_poolExec (.intr .timer) h hexec

theorem consIntr_type (s : Console) (results : List (BitVec 32)) (i : Slot) :
    ((s.consIntr results).after.pools.esrc i).type = (s.pools.esrc i).type := by
  rw [consIntr_pools]
  exact (Pools.sameShape_notifyAll Pools.keyboardDue s.pools).type i

structure RaisingCall (i : Slot) (call : ConsCall) : Prop where
  call_eq : call = call.before.consIntr call.results
  raised : Raised i call.before call.after

variable {results : List (BitVec 32)}

theorem raisingCall (hraised : Raised i s (s.consIntr results).after) :
    RaisingCall i (s.consIntr results) := by
  constructor
  · rw [consIntr_before, consIntr_results]
  · rw [consIntr_before]
    exact hraised

theorem exists_call_of_serialIntr {serialExists : Bool}
    (hraised : Raised i s (s.serialIntr serialExists results).2) :
    ∃ call ∈ (s.serialIntr serialExists results).1, RaisingCall i call := by
  cases serialExists with
  | false => exact absurd (hraised.low.symm.trans hraised.high) (by decide)
  | true => exact ⟨s.consIntr results, List.mem_singleton_self _, raisingCall hraised⟩

theorem not_raised_of_poolExec (op : Pools.PoolOp) (h : s.Linked) (hop : op ≠ .intr .console)
    (hexec : s.poolExec op = some (t, calls)) : ¬ Raised i s t := by
  intro hraised
  obtain ⟨lists, effect, -, hstep⟩ := poolExec_cases h hexec
  have hready := hstep.ready_of_keyboard hop hraised.keyboard hraised.high
  exact absurd (hraised.low.symm.trans hready) (by decide)

theorem exists_call_of_raised (h : s.Linked) (hexec : machine.exec s op = some (t, calls))
    (hraised : Raised i s t) : ∃ call ∈ calls, RaisingCall i call := by
  cases op with
  | keyboardIntr results =>
    simp only [machine, exec, Option.some.injEq, Prod.mk.injEq] at hexec
    obtain ⟨rfl, rfl⟩ := hexec
    exact ⟨s.consIntr results, List.mem_singleton_self _, raisingCall hraised⟩
  | serialIntr serialExists results =>
    simp only [machine, exec, Option.some.injEq, Prod.mk.injEq] at hexec
    obtain ⟨rfl, rfl⟩ := hexec
    exact exists_call_of_serialIntr hraised
  | consGetc serialExists serial keyboard =>
    simp only [machine, exec, Option.some.injEq, Prod.mk.injEq] at hexec
    obtain ⟨rfl, rfl⟩ := hexec
    -- Either the serial poll has raised the source already, or the keyboard poll does.
    cases hmiddle : ((s.serialIntr serialExists serial).2.pools.esrc i).ready with
    | false =>
      exact ⟨(s.serialIntr serialExists serial).2.consIntr keyboard,
        List.mem_append_right _ (List.mem_singleton_self _),
        raisingCall ⟨hraised.keyboard, hmiddle, hraised.high⟩⟩
    | true =>
      have htype := consIntr_type (s.serialIntr serialExists serial).2 keyboard i
      obtain ⟨call, hcall, hraises⟩ := exists_call_of_serialIntr (i := i)
        ⟨htype.symm.trans hraised.keyboard, hraised.low, hmiddle⟩
      exact ⟨call, List.mem_append_left _ hcall, hraises⟩
  | waitCall pid args =>
    exact absurd hraised
      (not_raised_of_poolExec (.call pid args) h (fun heq => by cases heq) hexec)
  | waitResume pid cont =>
    exact absurd hraised
      (not_raised_of_poolExec (.resume pid cont) h (fun heq => by cases heq) hexec)
  | timerIrq =>
    exact absurd hraised (not_raised_of_poolExec (.intr .timer) h (fun heq => by cases heq) hexec)

/-- **A keyboard source is raised by input, where the device has any.** It goes up only in a
call of `cons_intr`; the call puts the characters its device gave into the ring buffer, and if
there is a character among the results it has stored at least one. -/
theorem keyboard_raised_by_input {trace : List (ConsoleOp × List ConsCall)}
    (hrun : machine.Run Machine.anyStep init trace s)
    (hexec : machine.exec s op = some (t, calls)) (hraised : Raised i s t) :
    ∃ call ∈ calls, Raised i call.before call.after ∧
      call.after.cons = (ConsoleBuffer.characters call.results).foldl .store call.before.cons ∧
      call.stored = (ConsoleBuffer.characters call.results).length ∧
      (ConsoleBuffer.characters call.results ≠ [] → 1 ≤ call.stored) := by
  have hlinked : s.Linked :=
    hrun.invariant ⟨_, Pools.represents_waitobjInit⟩ fun h _ => h.step
  obtain ⟨call, hcall, hone, hraises⟩ := exists_call_of_raised hlinked hexec hraised
  have hloop := call.before.cons.consIntrLoop_eq call.results
  have hcons : call.after.cons =
      (ConsoleBuffer.characters call.results).foldl .store call.before.cons := by
    rw [hone, consIntr, hloop]
  have hstored : call.stored = (ConsoleBuffer.characters call.results).length := by
    rw [hone, consIntr, hloop]
  refine ⟨call, hcall, hraises, hcons, hstored, fun hsome => ?_⟩
  rw [hstored]
  exact List.length_pos_iff.mpr hsome

def oneKeyboardSource : List ConsoleOp :=
  [.waitCall 1 .create, .waitCall 1 (.add 0 eventKeyboard 0)]

theorem keyboard_raised_by_key : ∃ s t trace call, machine.Run Machine.anyStep init trace s ∧
      machine.exec s (.keyboardIntr [0x61]) = some (t, [call]) ∧ Raised 0 s t ∧
      1 ≤ call.stored := by
  have heval : ∃ r ∈ machine.runAll init oneKeyboardSource,
      (r.1.pools.esrc 0).ready = false ∧
      ((r.1.consIntr [0x61]).after.pools.esrc 0).type = eventKeyboard ∧
      ((r.1.consIntr [0x61]).after.pools.esrc 0).ready = true := by
    decide +kernel
  obtain ⟨⟨s, _⟩, hrunAll, hlow, hkeyboard, hhigh⟩ := heval
  have hrun : machine.Run Machine.anyStep init _ s :=
    Machine.run_of_runAll (fun _ _ _ => trivial) hrunAll
  have hraised : Raised 0 s (s.consIntr [0x61]).after := ⟨hkeyboard, hlow, hhigh⟩
  have hexec : machine.exec s (.keyboardIntr [0x61]) =
    some ((s.consIntr [0x61]).after, [s.consIntr [0x61]]) := rfl
  obtain ⟨call, hcall, -, -, -, hstored⟩ := keyboard_raised_by_input hrun hexec hraised
  obtain rfl := List.mem_singleton.mp hcall
  rw [consIntr_results] at hstored
  exact ⟨s, _, _, _, hrun, hexec, hraised, hstored (by decide)⟩

/-- **A key release raises a keyboard source.** So does a poll of another process that finds
nothing: `cons_intr` notifies although it has stored no character. -/
theorem keyboard_raised_without_input : ∃ s trace, machine.Run Machine.anyStep init trace s ∧
      Raised 0 s (s.consIntr [0]).after ∧ (s.consIntr [0]).stored = 0 ∧
      machine.exec s (.keyboardIntr [0]) = some ((s.consIntr [0]).after, [s.consIntr [0]]) ∧
      ∃ t calls, machine.exec s (.consGetc true [] []) = some (t, calls) ∧ Raised 0 s t ∧
        ∀ call ∈ calls, call.stored = 0 := by
  have heval : ∃ r ∈ machine.runAll init oneKeyboardSource,
      (r.1.pools.esrc 0).ready = false ∧ (r.1.consIntr [0]).stored = 0 ∧
      ((r.1.consIntr [0]).after.pools.esrc 0).type = eventKeyboard ∧
      ((r.1.consIntr [0]).after.pools.esrc 0).ready = true ∧
      ∃ c ∈ machine.exec r.1 (.consGetc true [] []),
        (c.1.pools.esrc 0).type = eventKeyboard ∧ (c.1.pools.esrc 0).ready = true ∧
        ∀ call ∈ c.2, call.stored = 0 := by
    decide +kernel
  obtain ⟨⟨s, _⟩, hrunAll, hlow, hzero, hkeyboard, hhigh, ⟨t, calls⟩, hgetc, hkeyboard', hhigh',
    hnone⟩ := heval
  have hrun : machine.Run Machine.anyStep init _ s :=
    Machine.run_of_runAll (fun _ _ _ => trivial) hrunAll
  exact ⟨s, _, hrun, ⟨hkeyboard, hlow, hhigh⟩, hzero, rfl, t, calls, hgetc,
    ⟨hkeyboard', hlow, hhigh'⟩, hnone⟩

end Console

end MCertikos.Sync
