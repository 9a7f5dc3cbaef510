/-
# The request queue of the disk driver

`ide_rw` appends a buffer to the queue and sleeps until the buffer is synced; `ide_intr` takes the
first buffer off, completes it and starts the disks on the next one.
-/

import MCertikos.BufCache.State
import MCertikos.Math.Chain

namespace MCertikos.BufCache

open Math FS Function

/-- What `pp` points to: `idequeue`, or the `qnext` of a buffer. -/
inductive Link
  | idequeue
  | qnext (b : Fin nbuf)
  deriving DecidableEq, Repr

/-- Where the process is that has called `ide_rw` with a buffer. -/
inductive IdePhase
  /-- There is no such process. -/
  | idle
  /-- Past the checks, at `spinlock_acquire(&ide_lk)`. -/
  | locking
  /-- In `thread_sleep`, asleep. -/
  | sleeping
  /-- In `thread_sleep`, woken, and about to take `ide_lk` again. -/
  | waking
  /-- It has given `ide_lk` back and returns. -/
  | returned
  deriving DecidableEq, Repr

/-- `ide_rw` waits for this: `B_VALID` and not `B_DIRTY`. -/
def Buf.Synced (buf : Buf) : Prop := buf.valid = true ∧ buf.dirty = false

instance (buf : Buf) : Decidable buf.Synced := inferInstanceAs (Decidable (_ ∧ _))

structure Ide where
  havedisk1 : Bool
  bufs : Fin nbuf → Buf
  qnext : Fin nbuf → Option (Fin nbuf)
  idequeue : Option (Fin nbuf)
  /-- The command that the disks are at work on. -/
  drive : Option Command
  /-- What there is to read after a command, if its status has no error. -/
  input : Option Block
  /-- The interrupts that the disks have raised and that are not handled yet. -/
  irqs : ℕ
  phase : Fin nbuf → IdePhase
  /-- The calls of `ide_rw` in the order in which they got the lock. -/
  calls : List (Fin nbuf)
  /-- The calls of `ide_start`. -/
  starts : List (Fin nbuf)
  /-- The completed requests. -/
  served : List (Fin nbuf)

namespace Ide

variable (s : Ide)

def goto (b : Fin nbuf) (phase : IdePhase) : Ide := { s with phase := update s.phase b phase }

/-! ## `ide_rw` -/

/-- `*pp`. -/
def load : Link → Option (Fin nbuf)
  | .idequeue => s.idequeue
  | .qnext b => s.qnext b

/-- `*pp = b`. -/
def store (b : Fin nbuf) : Link → Ide
  | .idequeue => { s with idequeue := some b }
  | .qnext c => { s with qnext := update s.qnext c (some b) }

/-- The loop along the queue; it fails if the queue does not end. -/
def findEnd : ℕ → Link → Option Link
  | 0, _ => none
  | fuel + 1, pp =>
    match s.load pp with
    | none => some pp
    | some c => findEnd fuel (.qnext c)

def append (b : Fin nbuf) : Option Ide :=
  let s := { s with qnext := update s.qnext b none, calls := s.calls ++ [b] }
  (s.findEnd (nbuf + 1) .idequeue).map (s.store b)

/-- `ide_wait` spins while the disks are at work. -/
def ideStart (b : Fin nbuf) : Option Ide :=
  if s.drive.isSome then none
  else some { s with drive := some (s.bufs b).command, starts := s.starts ++ [b] }

/-- The condition of the loop: `ide_rw` returns, or goes to sleep. -/
def await (b : Fin nbuf) : Ide := s.goto b (if (s.bufs b).Synced then .returned else .sleeping)

/-- The checks at the start of `ide_rw`; the kernel panics where one fails. -/
def Passes (b : Fin nbuf) : Prop :=
  (s.bufs b).busy = true ∧ ¬ (s.bufs b).Synced ∧ ((s.bufs b).dev = 0 ∨ s.havedisk1 = true)

instance (b : Fin nbuf) : Decidable (s.Passes b) := inferInstanceAs (Decidable (_ ∧ _ ∧ _))

def ideRw (b : Fin nbuf) : Option Ide := do
  let s ← s.append b
  let s ← if s.idequeue = some b then s.ideStart b else some s
  return s.await b

/-! ## `ide_intr` -/

def threadWakeup (b : Fin nbuf) : Ide :=
  s.goto b (if s.phase b = .sleeping then .waking else s.phase b)

def finishRequest (b : Fin nbuf) : Ide :=
  let buf := s.bufs b
  { s with
    idequeue := s.qnext b
    bufs := update s.bufs b { buf with
      data := if buf.dirty then buf.data else s.input.getD buf.data
      valid := true
      dirty := false }
    served := s.served ++ [b] }

def ideIntr : Option Ide :=
  match s.idequeue with
  | none => some s
  | some b =>
    -- `ide_wait(1)` spins while the disks are at work.
    if (s.bufs b).dirty = false ∧ s.drive.isSome then none
    else
      let s := (s.finishRequest b).threadWakeup b
      match s.idequeue with
      | none => some s
      | some next => s.ideStart next

/-! ## The machine -/

/-- A process goes on in `ide_rw`. -/
def proceed (b : Fin nbuf) : Option Ide :=
  match s.phase b with
  | .idle | .sleeping => none
  | .locking => s.ideRw b
  | .waking => some (s.await b)
  | .returned => some (s.goto b .idle)

end Ide

inductive IdeOp
  /-- A process calls `ide_rw`. -/
  | call (b : Fin nbuf)
  | proceed (b : Fin nbuf)
  | ideIntr
  /-- The disks are done with a command, and raise an interrupt. -/
  | finishCommand (input : Option Block)
  /-- Somebody wakes the channel of a buffer. -/
  | threadWakeup (b : Fin nbuf)
  /-- Other code changes a buffer that `ide_rw` was not called with. -/
  | change (b : Fin nbuf) (buf : Buf)

def Ide.exec (s : Ide) : IdeOp → Option Ide
  | .call b => if s.phase b = .idle ∧ s.Passes b then some (s.goto b .locking) else none
  | .proceed b => s.proceed b
  | .ideIntr => if 0 < s.irqs then { s with irqs := s.irqs - 1 }.ideIntr else none
  | .finishCommand input =>
    if s.drive.isSome then some { s with drive := none, input := input, irqs := s.irqs + 1 }
    else none
  | .threadWakeup b => some (s.threadWakeup b)
  | .change b buf =>
    if s.phase b = .idle then some { s with bufs := update s.bufs b buf } else none

def ideMachine : Machine Ide IdeOp Unit where
  exec s op := (s.exec op).map fun s => (s, ())

def Ide.boot (havedisk1 : Bool) (bufs : Fin nbuf → Buf) (qnext : Fin nbuf → Option (Fin nbuf)) :
    Ide where
  havedisk1 := havedisk1
  bufs := bufs
  qnext := qnext
  idequeue := none
  drive := none
  input := none
  irqs := 0
  phase _ := .idle
  calls := []
  starts := []
  served := []

/-! ## The invariant -/

/-- What is known of the buffer of a call. -/
def IdePhase.Ok (buf : Buf) (queued : Prop) : IdePhase → Prop
  | .idle => ¬ queued
  | .locking => ¬ queued ∧ ¬ buf.Synced
  | .sleeping | .waking => queued ↔ ¬ buf.Synced
  | .returned => ¬ queued ∧ buf.Synced

namespace Ide

/-- The disks are at work on the first request, or are done with it and have raised an
interrupt. -/
def WorksOn (s : Ide) : List (Fin nbuf) → Prop
  | [] => s.drive = none ∧ s.irqs = 0
  | b :: _ => s.drive = some (s.bufs b).command ∧ s.irqs = 0 ∨ s.drive = none ∧ s.irqs = 1

structure Queued (s : Ide) (queue : List (Fin nbuf)) : Prop where
  chain : Spells s.qnext s.idequeue queue
  order : s.calls = s.served ++ queue
  phases : ∀ b, (s.phase b).Ok (s.bufs b) (b ∈ queue)

/-- **The invariant of the driver.** -/
structure Serves (s : Ide) (queue : List (Fin nbuf)) : Prop extends s.Queued queue where
  started : s.starts = s.served ++ queue.head?.toList
  works : s.WorksOn queue

def InOrder (s : Ide) : Prop := ∃ queue, s.Serves queue

variable {s : Ide} {queue : List (Fin nbuf)} {b : Fin nbuf} {phase : IdePhase}

theorem findEnd_eq {fuel : ℕ} (pp : Link) (h : Spells s.qnext (s.load pp) queue)
    (hfuel : queue.length < fuel) :
    s.findEnd fuel pp = some (queue.getLast?.elim pp .qnext) := by
  induction queue generalizing fuel pp with
  | nil =>
    cases fuel with
    | zero => simp at hfuel
    | succ fuel =>
      have hnone : s.load pp = none := h
      rw [findEnd, hnone]
      rfl
  | cons c queue ih =>
    cases fuel with
    | zero => simp at hfuel
    | succ fuel =>
      rw [findEnd, h.1, List.getLast?_cons]
      dsimp only
      rw [ih (.qnext c) h.2 (by simpa using hfuel)]
      cases queue.getLast? <;> rfl

theorem append_spec (h : Spells s.qnext s.idequeue queue) (hb : b ∉ queue) :
    ∃ qnext idequeue, s.append b = some { s with
        qnext := qnext, idequeue := idequeue, calls := s.calls ++ [b] } ∧
      Spells qnext idequeue (queue ++ [b]) := by
  have hne : ∀ c ∈ queue, c ≠ b := fun c hc heq => hb (heq ▸ hc)
  have hchain : Spells (update s.qnext b none) s.idequeue queue :=
    h.congr fun c hc => update_of_ne (hne c hc) _ _
  have hlength : queue.length ≤ nbuf := by simpa using h.length_le
  have hend := findEnd_eq (s := { s with
    qnext := update s.qnext b none, calls := s.calls ++ [b] }) .idequeue hchain
    (Nat.lt_succ_of_le hlength)
  simp only [append, hend, Option.map_some]
  obtain rfl | ⟨before, last, rfl⟩ := List.eq_nil_or_concat' queue
  · exact ⟨_, _, rfl, rfl, update_self ..⟩
  · rw [List.getLast?_concat]
    exact ⟨_, _, rfl, hchain.concat hb (update_self ..)⟩

/-! ### The steps -/

namespace Queued

theorem goto (h : s.Queued queue) (hok : phase.Ok (s.bufs b) (b ∈ queue)) :
    (s.goto b phase).Queued queue := by
  refine ⟨h.chain, h.order, fun c => ?_⟩
  by_cases hc : c = b
  · simpa [Ide.goto, hc] using hok
  · simpa [Ide.goto, hc] using h.phases c

theorem threadWakeup (h : s.Queued queue) (b : Fin nbuf) : (s.threadWakeup b).Queued queue := by
  have hok := h.phases b
  refine h.goto ?_
  split
  · next hphase =>
    rw [hphase] at hok
    exact hok
  · exact hok

theorem finishRequest (h : s.Queued (b :: queue)) : (s.finishRequest b).Queued queue := by
  obtain ⟨hmem, -⟩ := List.nodup_cons.mp h.chain.nodup
  refine ⟨h.chain.2, ?_, fun c => ?_⟩
  · simp [Ide.finishRequest, h.order]
  · have hok := h.phases c
    by_cases hc : c = b
    · subst hc
      cases hphase : s.phase c <;>
        simp_all [Ide.finishRequest, IdePhase.Ok, Buf.Synced]
    · simpa [Ide.finishRequest, hc] using hok

theorem ideStart (h : s.Queued (b :: queue)) (hdrive : s.drive = none) (hirqs : s.irqs = 0)
    (hstarts : s.starts = s.served) : ∃ t, s.ideStart b = some t ∧ t.Serves (b :: queue) := by
  refine ⟨{ s with drive := some (s.bufs b).command, starts := s.starts ++ [b] }, ?_,
    ⟨h.chain, h.order, h.phases⟩, ?_, .inl ⟨rfl, hirqs⟩⟩
  · simp [Ide.ideStart, hdrive]
  · simp [hstarts]

end Queued

namespace Serves

theorem goto (h : s.Serves queue) (hok : phase.Ok (s.bufs b) (b ∈ queue)) :
    (s.goto b phase).Serves queue :=
  ⟨h.toQueued.goto hok, h.started, h.works⟩

theorem await (h : s.Serves queue) (hphase : s.phase b = .waking) : (s.await b).Serves queue := by
  have hok := h.phases b
  rw [hphase] at hok
  refine h.goto ?_
  split
  · next hsynced => exact ⟨fun hmem => hok.mp hmem hsynced, hsynced⟩
  · exact hok

theorem ideRw (h : s.Serves queue) (hphase : s.phase b = .locking) :
    ∃ t, s.ideRw b = some t ∧ t.Serves (queue ++ [b]) := by
  have hok := h.phases b
  rw [hphase] at hok
  obtain ⟨hmem, hsynced⟩ := hok
  obtain ⟨qnext, idequeue, happend, hchain⟩ := append_spec h.chain hmem
  have hqueued : ({ s with
      qnext := qnext, idequeue := idequeue, calls := s.calls ++ [b] }.goto b
        .sleeping).Queued (queue ++ [b]) := by
    refine ⟨hchain, ?_, fun c => ?_⟩
    · simp [Ide.goto, h.order]
    · by_cases hc : c = b
      · simp [Ide.goto, hc, IdePhase.Ok, hsynced]
      · simpa [Ide.goto, hc] using h.phases c
  cases queue with
  | nil =>
    -- The disks are idle, and the call starts them on its own request.
    obtain ⟨hdrive, hirqs⟩ := h.works
    have hstarts : s.starts = s.served := by simpa using h.started
    obtain ⟨t, hstart, hserves⟩ := hqueued.ideStart hdrive hirqs hstarts
    refine ⟨t, ?_, hserves⟩
    rw [← hstart]
    simp [Ide.ideRw, happend, hchain.1, Ide.ideStart, Ide.await, Ide.goto, hdrive, hsynced]
  | cons c queue =>
    have hne : c ≠ b := fun heq => hmem (heq ▸ List.mem_cons_self)
    refine ⟨_, ?_, hqueued, h.started, h.works⟩
    simp [Ide.ideRw, happend, hchain.1, hne, Ide.await, hsynced]

theorem ideIntr (h : s.Serves queue) (hirq : 0 < s.irqs) :
    ∃ t, { s with irqs := s.irqs - 1 }.ideIntr = some t ∧ t.InOrder := by
  cases queue with
  | nil =>
    have hzero := h.works.2
    omega
  | cons b queue =>
    obtain ⟨hdrive, hone⟩ : s.drive = none ∧ s.irqs = 1 := by
      obtain ⟨-, hzero⟩ | hdone := h.works
      · omega
      · exact hdone
    have hirqs : s.irqs - 1 = 0 := by omega
    have hstarts : s.starts = s.served ++ [b] := by simpa using h.started
    have hhandled : { s with irqs := s.irqs - 1 }.Queued (b :: queue) :=
      ⟨h.chain, h.order, h.phases⟩
    have hqueued := hhandled.finishRequest.threadWakeup b
    cases queue with
    | nil =>
      have hnone : s.qnext b = none := h.chain.2
      refine ⟨_, ?_, [], hqueued, hstarts.trans (List.append_nil _).symm, hdrive, hirqs⟩
      simp [Ide.ideIntr, h.chain.1, hdrive, Ide.finishRequest, Ide.threadWakeup, Ide.goto, hnone]
    | cons c queue =>
      have hnext : s.qnext b = some c := h.chain.2.1
      obtain ⟨t, hstart, hserves⟩ := hqueued.ideStart hdrive hirqs hstarts
      refine ⟨t, ?_, _, hserves⟩
      rw [← hstart]
      simp [Ide.ideIntr, h.chain.1, hdrive, Ide.finishRequest, Ide.threadWakeup, Ide.goto, hnext]

theorem raise (h : s.Serves queue) (hdrive : s.drive.isSome) (input : Option Block) :
    { s with drive := none, input := input, irqs := s.irqs + 1 }.Serves queue := by
  refine ⟨⟨h.chain, h.order, h.phases⟩, h.started, ?_⟩
  have hworks := h.works
  cases queue with
  | nil => simp [hworks.1] at hdrive
  | cons b queue =>
    obtain ⟨-, hzero⟩ | ⟨hnone, -⟩ := hworks
    · exact .inr ⟨rfl, by rw [hzero]⟩
    · simp [hnone] at hdrive

theorem change (h : s.Serves queue) (hphase : s.phase b = .idle) (buf : Buf) :
    { s with bufs := update s.bufs b buf }.Serves queue := by
  have hmem := h.phases b
  rw [hphase] at hmem
  refine ⟨⟨h.chain, h.order, fun c => ?_⟩, h.started, ?_⟩
  · by_cases hc : c = b
    · subst hc
      dsimp only
      rw [hphase]
      exact hmem
    · simpa [hc] using h.phases c
  · have hworks := h.works
    cases queue with
    | nil => exact hworks
    | cons c queue =>
      have hne : c ≠ b := fun heq => hmem (heq ▸ List.mem_cons_self)
      simpa [WorksOn, hne] using hworks

theorem proceed (h : s.Serves queue) {t : Ide} (hexec : s.proceed b = some t) : t.InOrder := by
  unfold Ide.proceed at hexec
  split at hexec
  · cases hexec
  · cases hexec
  · next hphase =>
    obtain ⟨u, hrw, hserves⟩ := h.ideRw hphase
    cases hrw.symm.trans hexec
    exact ⟨_, hserves⟩
  · next hphase =>
    cases hexec
    exact ⟨queue, h.await hphase⟩
  · next hphase =>
    have hok := h.phases b
    rw [hphase] at hok
    cases hexec
    exact ⟨queue, h.goto hok.1⟩

theorem exec (h : s.Serves queue) {op : IdeOp} {t : Ide} {out : Unit}
    (hstep : ideMachine.exec s op = some (t, out)) : t.InOrder := by
  obtain ⟨t, hexec, heq⟩ := Option.map_eq_some_iff.mp hstep
  cases heq
  cases op with
  | call b =>
    obtain ⟨⟨hphase, -, hsynced, -⟩, heq⟩ := Option.ite_none_right_eq_some.mp hexec
    have hok := h.phases b
    rw [hphase] at hok
    cases heq
    exact ⟨queue, h.goto ⟨hok, hsynced⟩⟩
  | proceed b => exact h.proceed hexec
  | ideIntr =>
    obtain ⟨hirq, hintr⟩ := Option.ite_none_right_eq_some.mp hexec
    obtain ⟨u, heq, hinOrder⟩ := h.ideIntr hirq
    cases heq.symm.trans hintr
    exact hinOrder
  | finishCommand input =>
    obtain ⟨hdrive, heq⟩ := Option.ite_none_right_eq_some.mp hexec
    cases heq
    exact ⟨queue, h.raise hdrive input⟩
  | threadWakeup b =>
    cases hexec
    exact ⟨queue, h.toQueued.threadWakeup b, h.started, h.works⟩
  | change b buf =>
    obtain ⟨hphase, heq⟩ := Option.ite_none_right_eq_some.mp hexec
    cases heq
    exact ⟨queue, h.change hphase buf⟩

end Serves

theorem inOrder_boot (havedisk1 : Bool) (bufs : Fin nbuf → Buf)
    (qnext : Fin nbuf → Option (Fin nbuf)) : (boot havedisk1 bufs qnext).InOrder :=
  ⟨[], ⟨rfl, rfl, fun _ => List.not_mem_nil⟩, rfl, rfl, rfl⟩

end Ide

/-- **Every request is served once, in order.** In every interleaving of calls of `ide_rw` for
different buffers, interrupts, wakeups and the work of the disks: the calls are the completed
requests and then the queue, and `ide_start` was called for the completed requests and the first
one of the queue.  Where `ide_rw` returns, all requests for its buffer are completed, and the
buffer is `B_VALID`, not `B_DIRTY` and not in the queue.  Code that has the lock never gets
stuck. -/
theorem requests_served_in_order {havedisk1 : Bool} {bufs : Fin nbuf → Buf}
    {qnext : Fin nbuf → Option (Fin nbuf)} {trace : List (IdeOp × Unit)} {s : Ide}
    (run : ideMachine.Run Machine.anyStep (.boot havedisk1 bufs qnext) trace s) :
    (∃ queue, Spells s.qnext s.idequeue queue ∧ queue.Nodup ∧ s.calls = s.served ++ queue ∧
      s.starts = s.served ++ queue.head?.toList ∧ s.WorksOn queue ∧
      ∀ b, s.phase b = .returned → s.served.count b = s.calls.count b ∧ b ∉ queue ∧
        (s.bufs b).valid = true ∧ (s.bufs b).dirty = false) ∧
      (0 < s.irqs → (s.exec .ideIntr).isSome) ∧
      ∀ b, s.phase b = .locking → (s.exec (.proceed b)).isSome := by
  obtain ⟨queue, h⟩ : s.InOrder := run.invariant (Ide.inOrder_boot havedisk1 bufs qnext)
    fun ⟨_, h⟩ _ hexec => h.exec hexec
  refine ⟨⟨queue, h.chain, h.chain.nodup, h.order, h.started, h.works, fun b hphase => ?_⟩,
    fun hirq => ?_, fun b hphase => ?_⟩
  · have hok := h.phases b
    rw [hphase] at hok
    refine ⟨?_, hok.1, hok.2⟩
    rw [h.order, List.count_append, List.count_eq_zero_of_not_mem hok.1, Nat.add_zero]
  · obtain ⟨t, hintr, -⟩ := h.ideIntr hirq
    simp [Ide.exec, hirq, hintr]
  · obtain ⟨t, hrw, -⟩ := h.ideRw hphase
    simp [Ide.exec, Ide.proceed, hphase, hrw]

def unread (b : Fin nbuf) : Buf := ⟨⟨0, BitVec.ofNat 32 b.val⟩, true, false, false, fun _ => 0⟩

theorem requests_served_in_order_of_two :
    ∃ (trace : List (IdeOp × Unit)) (s : Ide),
      ideMachine.Run Machine.anyStep (.boot false unread fun _ => none) trace s ∧
      s.phase 0 = .returned ∧ (s.bufs 0).valid = true ∧ s.calls = [0, 1] ∧
      ∃ queue, Spells s.qnext s.idequeue queue ∧ s.calls = s.served ++ queue := by
  have heval : ∃ x ∈ ideMachine.runAll (.boot false unread fun _ => none)
      [.call 0, .call 1, .proceed 0, .proceed 1, .threadWakeup 0, .proceed 0,
        .finishCommand none, .ideIntr, .proceed 0],
      x.1.phase 0 = .returned ∧ x.1.calls = [0, 1] := by
    decide +kernel
  obtain ⟨⟨s, outs⟩, hrunAll, hreturned, hcalls⟩ := heval
  have hrun : ideMachine.Run Machine.anyStep (.boot false unread fun _ => none) _ s :=
    Machine.run_of_runAll (fun _ _ _ => trivial) hrunAll
  obtain ⟨⟨queue, hchain, -, horder, -, -, hreturns⟩, -⟩ := requests_served_in_order hrun
  exact ⟨_, s, hrun, hreturned, (hreturns 0 hreturned).2.2.1, hcalls, queue, hchain, horder⟩

end MCertikos.BufCache
