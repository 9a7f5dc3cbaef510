/-
# Message passing as a rendezvous

What the two system calls are for, without queue, channels or scheduler: each process is idle, has
one message pending, or has had it consumed and is about to return.
-/

import MCertikos.Ipc.MsgInv
import MCertikos.Math.Refinement

namespace MCertikos.Ipc

open Math Thread Function

/-! ## The specification -/

inductive Phase
  | idle
  | pending (recvPid length : ℕ)
  | consumed
  deriving DecidableEq, Repr

inductive Event
  /-- A process starts to send. -/
  | send (pid recvPid length : ℕ)
  /-- A receive returns the number of bytes it copied. -/
  | receive (pid sendPid recvLength copyLength : ℕ)
  /-- A send returns. -/
  | sent (pid : ℕ)
  deriving DecidableEq, Repr

/-- **The rendezvous.** A message goes from pending to consumed by one receive of
its addressee, and its send returns after that. -/
def rendezvous : Machine (ℕ → Phase) Event Unit where
  exec phase event :=
    match event with
    | .send pid recvPid length =>
      if phase pid = .idle then
        some (update phase pid (.pending recvPid length), ())
      else none
    | .receive pid sendPid recvLength copyLength =>
      match phase sendPid with
      | .pending recvPid length =>
        if recvPid = pid ∧ copyLength = min length recvLength then
          some (update phase sendPid .consumed, ())
        else none
      | _ => none
    | .sent pid =>
      if phase pid = .consumed then some (update phase pid .idle, ()) else none

def sendCount (p : ℕ) (log : List Event) : ℕ :=
  log.countP fun event => match event with
    | .send pid _ _ => pid = p
    | _ => false

def receiveCount (p : ℕ) (log : List Event) : ℕ :=
  log.countP fun event => match event with
    | .receive _ sendPid _ _ => sendPid = p
    | _ => false

def sentCount (p : ℕ) (log : List Event) : ℕ :=
  log.countP fun event => match event with
    | .sent pid => pid = p
    | _ => false

def Balanced (phase : Phase) (sends receives completed : ℕ) : Prop :=
  match phase with
  | .idle => sends = receives ∧ receives = completed
  | .pending _ _ => sends = receives + 1 ∧ receives = completed
  | .consumed => sends = receives ∧ receives = completed + 1

theorem balanced_step {log : List Event} {phase phase' : ℕ → Phase} {event : Event}
    (hexec : rendezvous.exec phase event = some (phase', ())) {p : ℕ}
    (h : Balanced (phase p) (sendCount p log) (receiveCount p log) (sentCount p log)) :
    Balanced (phase' p) (sendCount p (log ++ [event])) (receiveCount p (log ++ [event]))
      (sentCount p (log ++ [event])) := by
  cases event with
  | send pid recvPid length =>
    simp only [rendezvous, Option.ite_none_right_eq_some, Option.some.injEq,
      Prod.mk.injEq] at hexec
    obtain ⟨hidle, rfl, -⟩ := hexec
    by_cases hp : p = pid
    · subst hp
      rw [hidle] at h
      simpa [Balanced, sendCount, receiveCount, sentCount] using h
    · simpa [sendCount, receiveCount, sentCount, hp, Ne.symm hp] using h
  | receive pid sendPid recvLength copyLength =>
    simp only [rendezvous] at hexec
    split at hexec
    · next recvPid length hpending =>
      obtain ⟨-, hexec⟩ := Option.ite_none_right_eq_some.mp hexec
      obtain ⟨rfl, -⟩ := Prod.mk.inj (Option.some.inj hexec)
      by_cases hp : p = sendPid
      · subst hp
        rw [hpending] at h
        simpa [Balanced, sendCount, receiveCount, sentCount] using h
      · simpa [sendCount, receiveCount, sentCount, hp, Ne.symm hp] using h
    · cases hexec
  | sent pid =>
    simp only [rendezvous, Option.ite_none_right_eq_some, Option.some.injEq,
      Prod.mk.injEq] at hexec
    obtain ⟨hconsumed, rfl, -⟩ := hexec
    by_cases hp : p = pid
    · subst hp
      rw [hconsumed] at h
      simpa [Balanced, sendCount, receiveCount, sentCount] using h
    · simpa [sendCount, receiveCount, sentCount, hp, Ne.symm hp] using h

/-- **Exactly once.** In every accepted log each send but the pending one was
received once, and each received one but the last has returned. -/
theorem balanced_of_run {trace : List (Event × Unit)} {phase : ℕ → Phase}
    (run : rendezvous.Run Machine.anyStep (fun _ => .idle) trace phase) (p : ℕ) :
    Balanced (phase p) (sendCount p (trace.map Prod.fst)) (receiveCount p (trace.map Prod.fst))
      (sentCount p (trace.map Prod.fst)) := by
  induction run with
  | start => exact ⟨rfl, rfl⟩
  | extend _ _ realized ih =>
    rw [List.map_append]
    exact balanced_step realized ih

/-! ## The events of the kernel -/

section Events

variable {χ μ : Type*}

def entered : DataOp Cont Call Empty → List Event
  | .call pid (.send recvPid _ length) => [.send pid recvPid length]
  | _ => []

def returned (op : DataOp Cont Call Empty) (out : Output Ret) : List Event :=
  match out, loopOf op with
  | .ret pid .sent, _ => [.sent pid]
  | .ret pid (.received copyLength), some (.recv _ sendPid _ recvLength) =>
    [.receive pid sendPid recvLength copyLength]
  | _, _ => []

def ipcEvents (k : Kernel χ Cont (Msg μ)) (op : Op Call Empty) (out : Output Ret) : List Event :=
  match k.dataOp op with
  | some op => entered op ++ returned op out
  | none => []

def phases (conts : ℕ → Option Cont) (s : Msg μ) (p : ℕ) : Phase :=
  if p ∈ s.msgList then .pending (s.recvPid p) (s.length p)
  else match conts p with
    | some (.send _) => .consumed
    | _ => .idle

end Events

/-! ## The refinement -/

section Refinement

variable {χ μ : Type*} {env : Env χ μ} {s t : Msg μ} {q q' : List ℕ}
  {conts conts' : ℕ → Option Cont} {pid : ℕ}
  {op : DataOp Cont Call Empty} {effect : Effect χ Cont Ret}

theorem phases_of_mem (hq : s.QueueOk q) {p : ℕ} (hmem : p ∈ q) :
    phases conts s p = .pending (s.recvPid p) (s.length p) := by
  rw [phases, hq.msgList_eq, if_pos hmem]

theorem phases_of_sender (hq : s.QueueOk q) {p c : ℕ} (hmem : p ∉ q)
    (hcont : conts p = some (.send c)) : phases conts s p = .consumed := by
  rw [phases, hq.msgList_eq, if_neg hmem, hcont]

theorem phases_of_other (hq : s.QueueOk q) {p : ℕ} (hmem : p ∉ q)
    (hcont : ∀ c, conts p ≠ some (.send c)) : phases conts s p = .idle := by
  rw [phases, hq.msgList_eq, if_neg hmem]
  split
  · next c hc => exact absurd hc (hcont c)
  · rfl

theorem phases_congr (hq : s.QueueOk q) (ht : t.QueueOk q') {p : ℕ}
    (hmem : p ∈ q' ↔ p ∈ q) (hrecv : t.recvPid p = s.recvPid p)
    (hlength : t.length p = s.length p) (hcont : conts' p = conts p) :
    phases conts' t p = phases conts s p := by
  simp only [phases, hq.msgList_eq, ht.msgList_eq, hmem, hrecv, hlength, hcont]

theorem phases_send {recvPid length : ℕ} (hq : s.QueueOk q) (ht : t.QueueOk (q ++ [pid]))
    (hrecv : t.recvPid = update s.recvPid pid recvPid)
    (hlength : t.length = update s.length pid length) :
    phases (update conts pid (some (.send pid))) t =
      update (phases conts s) pid (.pending recvPid length) := by
  funext p
  by_cases hp : p = pid
  · subst hp
    rw [phases_of_mem ht (by simp), hrecv, hlength]
    simp only [update_self]
  · rw [update_of_ne hp]
    apply phases_congr hq ht <;> simp [hrecv, hlength, hp]

theorem phases_return (hq : s.QueueOk q) (ht : t.QueueOk q) (hmem : pid ∉ q)
    (hrecv : t.recvPid = s.recvPid) (hlength : t.length = s.length) :
    phases (update conts pid none) t = update (phases conts s) pid .idle := by
  funext p
  by_cases hp : p = pid
  · subst hp
    rw [phases_of_other ht hmem fun c => by simp, update_self]
  · rw [update_of_ne hp]
    apply phases_congr hq ht <;> simp [hrecv, hlength, hp]

theorem phases_receive {sendPid : ℕ} (hq : s.QueueOk q) (ht : t.QueueOk (q.erase sendPid))
    (hsending : conts sendPid = some (.send sendPid)) (hrecv : t.recvPid = s.recvPid)
    (hlength : t.length = s.length) :
    phases conts t = update (phases conts s) sendPid .consumed := by
  funext p
  by_cases hp : p = sendPid
  · subst hp
    rw [phases_of_sender ht hq.represents.nodup.not_mem_erase hsending, update_self]
  · rw [update_of_ne hp]
    apply phases_congr hq ht <;> simp [hrecv, hlength, List.mem_erase_of_ne hp]

theorem phases_update (hq : s.QueueOk q) {cont : Option Cont} (hmem : pid ∉ q)
    (hold : ∀ c, conts pid ≠ some (.send c)) (hnew : ∀ c, cont ≠ some (.send c)) :
    phases (update conts pid cont) s = phases conts s := by
  funext p
  by_cases hp : p = pid
  · subst hp
    rw [phases_of_other hq hmem hold]
    exact phases_of_other hq hmem fun c => by simpa using hnew c
  · exact phases_congr hq hq Iff.rfl rfl rfl (update_of_ne hp _ _)

theorem entered_of_loop {cont : Cont} (hloop : loopOf op = some cont) : entered op = [] := by
  cases op with
  | call pid args => cases args <;> first | rfl | cases hloop
  | resume | intr => rfl

theorem Acts.not_sending (hacts : Acts conts pid op) (hinv : IpcInv conts s)
    {curPid sendPid userRecvAddr recvLength : ℕ}
    (hloop : loopOf op = some (.recv curPid sendPid userRecvAddr recvLength)) (c : ℕ) :
    conts pid ≠ some (.send c) := by
  obtain ⟨-, hsome | ⟨hnone, -⟩⟩ := hacts.loop hinv hloop
  · simp [hsome]
  · simp [hnone]

theorem MsgStep.simulates (hstep : MsgStep env q s op q' t effect) (hq : s.QueueOk q)
    (hinv : IpcInv conts s) (hacts : Acts conts pid op) :
    rendezvous.Run Machine.anyStep (phases conts s)
      ((entered op ++ returned op (effect.output pid)).map fun event => (event, ()))
      (phases (update conts pid effect.contAfter) t) := by
  cases hstep with
  | send hfresh hqueue hrecv hlength =>
    cases hacts with
    | call user =>
      have hidle : phases conts s pid = .idle :=
        phases_of_other hq hfresh fun c => by simp [user]
      refine .single trivial ?_
      rw [Effect.contAfter, phases_send hq hqueue hrecv hlength]
      exact if_pos hidle
  | @wait _ cont _ hloop hwaiting hqueue hrecv hlength =>
    have hsame : phases conts t = phases conts s := by
      funext p
      exact phases_congr hq hqueue Iff.rfl (by rw [hrecv]) (by rw [hlength]) rfl
    have hnext : phases (update conts pid (some cont)) t = phases conts t := by
      obtain ⟨-, hsome | ⟨hnone, hrecvs⟩⟩ := hacts.loop hinv hloop
      · rw [← hsome, update_eq_self]
      · cases cont with
        | send c => exact absurd rfl (hrecvs c)
        | recv =>
          exact phases_update hqueue (hacts.not_mem_of_recv hinv hq hloop)
            (hacts.not_sending hinv hloop) fun c => by simp
    rw [Effect.contAfter, hnext, hsame, entered_of_loop hloop]
    exact .start
  | @sent _ curPid _ hloop hgone hqueue hrecv hlength =>
    obtain ⟨hpid, hsome | ⟨-, hrecvs⟩⟩ := hacts.loop hinv hloop
    · obtain rfl : curPid = pid := hpid
      have hconsumed := phases_of_sender hq hgone hsome
      rw [Effect.contAfter, phases_return hq hqueue hgone hrecv hlength,
        entered_of_loop hloop]
      exact .single trivial (if_pos hconsumed)
    · exact absurd rfl (hrecvs _)
  | @received _ curPid sendPid _ recvLength _ hloop hmem haddressed hqueue hrecv hlength =>
    have hpending : phases conts s sendPid = .pending pid (s.length sendPid) := by
      rw [phases_of_mem hq hmem, haddressed, ← (hacts.loop hinv hloop).1]
      rfl
    have hsending := hinv.sending sendPid (hq.msgList_eq.symm ▸ hmem)
    have hgone : pid ∉ q.erase sendPid := fun h =>
      hacts.not_mem_of_recv hinv hq hloop (List.mem_of_mem_erase h)
    rw [Effect.contAfter, phases_update hqueue hgone (hacts.not_sending hinv hloop)
      (fun c => by simp), phases_receive hq hqueue hsending hrecv hlength,
      entered_of_loop hloop]
    simp only [Effect.output, returned, hloop, List.nil_append, List.map_cons, List.map_nil]
    refine .single trivial ?_
    simp [rendezvous, hpending]

theorem phases_boot (mem : μ) : phases (Kernel.boot (Msg.ipcInit mem) : Kernel χ Cont (Msg μ)).cont
      (Kernel.boot (Msg.ipcInit mem) : Kernel χ Cont (Msg μ)).shared = fun _ => .idle := by
  funext p
  exact phases_of_other (Msg.queueOk_ipcInit mem) List.not_mem_nil fun c => by
    simp [Kernel.boot]

variable {k : Kernel χ Cont (Msg μ)}

theorem mem_msgList_iff_pending (p : ℕ) : p ∈ k.shared.msgList ↔
      ∃ recvPid length, phases k.cont k.shared p = .pending recvPid length := by
  unfold phases
  by_cases hmem : p ∈ k.shared.msgList
  · simp [hmem]
  · simp only [hmem, if_false, false_iff, not_exists]
    intro recvPid length
    split <;> simp

theorem sending_iff_not_idle (hinv : IpcInv k.cont k.shared) (p : ℕ) :
    (∃ curPid, k.cont p = some (.send curPid)) ↔ phases k.cont k.shared p ≠ .idle := by
  obtain ⟨q, hq⟩ := hinv.queue
  constructor
  · rintro ⟨curPid, hcont⟩
    by_cases hmem : p ∈ q
    · rw [phases_of_mem hq hmem]
      simp
    · rw [phases_of_sender hq hmem hcont]
      simp
  · intro hphase
    by_contra hcont
    have hmem : p ∉ q := fun h => hcont ⟨p, hinv.sending p (hq.msgList_eq.symm ▸ h)⟩
    exact hphase (phases_of_other hq hmem fun c hc => hcont ⟨c, hc⟩)

variable [DecidableEq χ]

abbrev IpcSettled (env : Env χ μ) (k : Kernel χ Cont (Msg μ)) : Prop :=
  Settled IpcInv (Cont.chan env) Msg.Waiting k

theorem simulates_step {k next : Kernel χ Cont (Msg μ)} {kop : Op Call Empty}
    {out : Output Ret} (hsettled : IpcSettled env k)
    (hstep : (ipcMonitor env).Step k kop next out) :
    rendezvous.Run Machine.anyStep (phases k.cont k.shared)
      ((ipcEvents k kop out).map fun event => (event, ())) (phases next.cont next.shared) := by
  obtain ⟨q, hq⟩ := hsettled.inv.queue
  cases hstep with
  | @spawn pid user hone hlt hdead =>
    have hnone := hsettled.cont_of_dead pid hdead
    rw [← hnone, update_eq_self]
    exact .start
  | handoff | yield | kill | terminate => exact .start
  | @call args path _ _ user hpath hfinish =>
    have hacts : Acts k.cont k.sched.curid (.call k.sched.curid args) := .call user
    obtain ⟨hshared, hcont, rfl⟩ := Kernel.effect_of_finish hfinish
    obtain ⟨q', hmsg⟩ := msgStep_of_exec hq (fun p args' hop => by
      obtain ⟨rfl, hmem⟩ := hacts.fresh hsettled.inv hq hop
      obtain ⟨_, hwf⟩ := hsettled.sched
      exact ⟨hwf.curid_lt, hmem⟩) (Monitor.dataExec_call hpath)
    rw [hshared, hcont]
    exact hmsg.simulates hq hsettled.inv hacts
  | @resume cont path _ _ hcur hpath hfinish =>
    have hacts : Acts k.cont k.sched.curid (.resume k.sched.curid cont) := .resume hcur
    obtain ⟨hshared, hcont, rfl⟩ := Kernel.effect_of_finish hfinish
    obtain ⟨q', hmsg⟩ := msgStep_of_exec hq (by simp) (Monitor.dataExec_resume hpath)
    have hdop : k.dataOp (.resume : Op Call Empty) =
        some (.resume k.sched.curid cont) := by
      rw [Kernel.dataOp, hcur, Option.map_some]
    rw [hshared, hcont, ipcEvents, hdop]
    exact hmsg.simulates hq hsettled.inv hacts
  | @intr irq => cases irq

theorem settled_of_ipcRun {mem : μ} {trace : List (Op Call Empty × Output Ret)}
    (run : (ipcMonitor env).machine.Run Kernel.ProcessStep (Kernel.boot (Msg.ipcInit mem))
      trace k) : IpcSettled env k :=
  (ipcDiscipline env).settled_of_run (ipcInv_init mem) run

/-- **Synchronous message passing is a rendezvous.** The specification accepts what the
processes see of every run, the queue holds exactly the senders whose message is pending, each
once, a process is inside `sys_sync_send` exactly while its message is pending or consumed, and
whoever sleeps waits for a condition that fails. -/
theorem rendezvous_of_run {env : Env χ μ} {mem : μ} {trace : List (Op Call Empty × Output Ret)}
    {k : Kernel χ Cont (Msg μ)} {log : List Event}
    (run : ((ipcMonitor env).machine.logged ipcEvents).Run (fun s op => s.1.ProcessStep op)
      (Kernel.boot (Msg.ipcInit mem), []) trace (k, log)) :
    ∃ phase : ℕ → Phase,
      rendezvous.Run Machine.anyStep (fun _ => .idle) (log.map fun event => (event, ())) phase ∧
      k.shared.msgList.Nodup ∧
      (∀ p, p ∈ k.shared.msgList ↔ ∃ recvPid length, phase p = .pending recvPid length) ∧
      (∀ p, (∃ curPid, k.cont p = some (.send curPid)) ↔ phase p ≠ .idle) ∧
      (∀ p, Balanced (phase p) (sendCount p log) (receiveCount p log) (sentCount p log)) ∧
      ∀ p, k.sched.state p = .sleep → ∃ cont, k.cont p = some cont ∧ cont.curPid = p ∧
        k.sched.channel p = some (cont.chan env) ∧ k.shared.Waiting p cont := by
  have hsettled := settled_of_ipcRun run.of_logged
  have hspec : rendezvous.Run Machine.anyStep _ (log.map fun event => (event, ()))
      (phases k.cont k.shared) :=
    run.refines (fun k => phases k.cont k.shared) rfl settled_of_ipcRun
      fun h _ hexec => simulates_step h (Monitor.step_of_exec hexec)
  rw [phases_boot] at hspec
  obtain ⟨q, hq⟩ := hsettled.inv.queue
  refine ⟨phases k.cont k.shared, hspec, ?_, mem_msgList_iff_pending,
    sending_iff_not_idle hsettled.inv, ?_, ?_⟩
  · rw [hq.msgList_eq]
    exact hq.represents.nodup
  · intro p
    have hbalanced := balanced_of_run hspec p
    rwa [List.map_map, Function.comp_def, List.map_id'] at hbalanced
  · intro p hsleep
    obtain ⟨-, cont, hcont, hchan, hwaiting⟩ := hsettled.asleep p hsleep
    exact ⟨cont, hcont, hsettled.inv.curPid p cont hcont, hchan, hwaiting⟩

end Refinement

def copyRecorder : Env ℕ (List ℕ) where
  ipcCopy _ _ _ _ length mem := length :: mem
  sendCv pid := 2 * pid
  recvCv pid := 2 * pid + 1

theorem rendezvous_of_signalled_send :
    ∃ (k : Kernel ℕ Cont (Msg (List ℕ))) (trace : List (Op Call Empty × Output Ret)),
      ((ipcMonitor copyRecorder).machine.logged ipcEvents).Run
        (fun s op => s.1.ProcessStep op) (Kernel.boot (Msg.ipcInit []), []) trace
        (k, [.send 1 2 8, .receive 2 1 4 4, .sent 1]) ∧
      k.shared.mem = [4] ∧
      ∃ phase : ℕ → Phase,
        rendezvous.Run Machine.anyStep (fun _ => .idle)
          [(.send 1 2 8, ()), (.receive 2 1 4 4, ()), (.sent 1, ())] phase ∧
        ∀ p, p ∈ k.shared.msgList ↔ ∃ recvPid length, phase p = .pending recvPid length := by
  have hfinal : ((((ipcMonitor copyRecorder).machine.logged ipcEvents).guarded
      (fun s op => s.1.ProcessStep op)).runAll (Kernel.boot (Msg.ipcInit []), [])
      [.spawn 1, .spawn 2, .spawn 3, .handoff 1, .call (.send 2 100 8), .kill 1 10, .yield,
        .yield, .resume, .call (.recv 1 200 4), .yield, .yield, .resume]).map
      (fun r => (r.1.2, r.1.1.shared.mem)) =
      some ([.send 1 2 8, .receive 2 1 4 4, .sent 1], [4]) := by
    decide +kernel
  obtain ⟨⟨⟨k, log⟩, outs⟩, hall, heq⟩ := Option.map_eq_some_iff.mp hfinal
  obtain ⟨rfl, hmem⟩ := Prod.mk.inj heq
  have hrun := Machine.run_of_guarded hall
  obtain ⟨phase, hspec, -, hpending, -⟩ := rendezvous_of_run hrun
  exact ⟨k, _, hrun, hmem, phase, hspec, hpending⟩

end MCertikos.Ipc
