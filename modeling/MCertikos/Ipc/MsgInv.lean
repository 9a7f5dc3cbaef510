/-
# The message queue and the sleepers around it

The queue functions of `ipc.c` are the general index-linked queue.
-/

import MCertikos.Ipc.Msg

namespace MCertikos.Ipc

open Math Thread Function

variable {χ μ : Type*}

def Cont.curPid : Cont → ℕ
  | .send curPid => curPid
  | .recv curPid _ _ _ => curPid

def Cont.chan (env : Env χ μ) : Cont → χ
  | .send curPid => env.recvCv curPid
  | .recv _ sendPid _ _ => env.sendCv sendPid

namespace Msg

variable {s : Msg μ} {q : List ℕ}

def links (s : Msg μ) : Links ℕ := ⟨s.head, s.tail, s.prev, s.next⟩

def msgList (s : Msg μ) : List ℕ := Links.walk numIds s.next numIds s.head

theorem links_msgEnqueue (s : Msg μ) (pid : ℕ) :
    (s.msgEnqueue pid).links = s.links.pushBack numIds pid := by
  unfold msgEnqueue Links.pushBack
  by_cases htail : s.tail = numIds <;> simp [links, htail]

theorem links_msgRemove (s : Msg μ) (pid : ℕ) :
    (s.msgRemove pid).links = s.links.unlink numIds pid := by
  unfold msgRemove Links.unlink
  by_cases hprev : s.prev pid = numIds
  · by_cases hnext : s.next pid = numIds <;> simp [links, hprev, hnext]
  · by_cases hnext : s.next pid = numIds <;> simp [links, hprev, hnext]

section Frame

variable (s : Msg μ) (pid : ℕ)

@[simp] theorem msgEnqueue_sendPid : (s.msgEnqueue pid).sendPid = s.sendPid := by
  unfold msgEnqueue
  split <;> rfl

@[simp] theorem msgEnqueue_recvPid : (s.msgEnqueue pid).recvPid = s.recvPid := by
  unfold msgEnqueue
  split <;> rfl

@[simp] theorem msgEnqueue_length : (s.msgEnqueue pid).length = s.length := by
  unfold msgEnqueue
  split <;> rfl

@[simp] theorem msgRemove_sendPid : (s.msgRemove pid).sendPid = s.sendPid := by
  unfold msgRemove
  dsimp only
  split_ifs <;> rfl

@[simp] theorem msgRemove_recvPid : (s.msgRemove pid).recvPid = s.recvPid := by
  unfold msgRemove
  dsimp only
  split_ifs <;> rfl

@[simp] theorem msgRemove_length : (s.msgRemove pid).length = s.length := by
  unfold msgRemove
  dsimp only
  split_ifs <;> rfl

end Frame

structure QueueOk (s : Msg μ) (q : List ℕ) : Prop where
  represents : s.links.Represents numIds q
  lt_of_mem : ∀ p ∈ q, p < numIds
  sendPid_eq : ∀ p, s.sendPid p = p

theorem queueOk_ipcInit (mem : μ) : (ipcInit mem).QueueOk [] :=
  ⟨Links.represents_nil rfl rfl, by simp, fun _ => rfl⟩

theorem recvIDLoop_eq_none {recvPid pid : ℕ} (hpid : pid ≠ numIds) (hrecv : s.recvPid pid ≠ recvPid)
    (fuel : ℕ) : s.recvIDLoop recvPid pid fuel = none := by
  induction fuel with
  | zero => rfl
  | succ fuel ih => rw [recvIDLoop, if_neg hpid, if_neg hrecv, ih]

def HeadDecides (s : Msg μ) (q : List ℕ) (recvPid : ℕ) : Prop :=
  ∀ p ∈ q.head?, s.recvPid p = recvPid

namespace QueueOk

theorem length_le (hq : s.QueueOk q) : q.length ≤ numIds :=
  hq.represents.length_le_of_lt hq.lt_of_mem

theorem msgList_eq (hq : s.QueueOk q) : s.msgList = q := hq.represents.walk_head hq.length_le

theorem congr {t : Msg μ} (hq : s.QueueOk q) (hlinks : t.links = s.links)
    (hsend : t.sendPid = s.sendPid) : t.QueueOk q :=
  ⟨hlinks ▸ hq.represents, hq.lt_of_mem, fun p => by rw [hsend, hq.sendPid_eq]⟩

theorem msgGetBlockBySendID_eq (hq : s.QueueOk q) (sendPid : ℕ) :
    s.msgGetBlockBySendID sendPid = some (if sendPid ∈ q then sendPid else numIds) := by
  have hsearch : Links.search numIds s.next (fun pid => decide (s.sendPid pid = sendPid))
      numIds s.head = some (q.find? fun pid => decide (s.sendPid pid = sendPid)) :=
    hq.represents.search_head _ hq.length_le
  have hfound : (q.find? fun pid => decide (s.sendPid pid = sendPid)).isSome =
      decide (sendPid ∈ q) := by
    rw [Bool.eq_iff_iff, List.find?_isSome]
    simp [hq.sendPid_eq]
  simp [msgGetBlockBySendID, hsearch, hfound]

theorem enqueue (hq : s.QueueOk q) {pid : ℕ} (hpid : pid < numIds) (hmem : pid ∉ q) :
    (s.msgEnqueue pid).QueueOk (q ++ [pid]) where
  represents := by
    rw [links_msgEnqueue]
    exact hq.represents.pushBack hmem (Nat.ne_of_lt hpid)
  lt_of_mem p hp := by
    rcases List.mem_append.mp hp with hold | hnew
    · exact hq.lt_of_mem p hold
    · rw [List.mem_singleton.mp hnew]
      exact hpid
  sendPid_eq p := by rw [msgEnqueue_sendPid, hq.sendPid_eq]

theorem remove (hq : s.QueueOk q) {pid : ℕ} (hmem : pid ∈ q) :
    (s.msgRemove pid).QueueOk (q.erase pid) where
  represents := by
    rw [links_msgRemove]
    exact hq.represents.unlink hmem
  lt_of_mem p hp := hq.lt_of_mem p (List.mem_of_mem_erase hp)
  sendPid_eq p := by rw [msgRemove_sendPid, hq.sendPid_eq]

theorem msgGetBlockByRecvID_eq (hq : s.QueueOk q) {recvPid : ℕ} (h : s.HeadDecides q recvPid)
    (fuel : ℕ) : s.msgGetBlockByRecvID recvPid (fuel + 1) =
      some ((q.find? fun p => s.recvPid p = recvPid).getD numIds) := by
  have hhead : s.head = q.headD numIds := hq.represents.head_eq
  cases q with
  | nil =>
    rw [List.headD_nil] at hhead
    rw [msgGetBlockByRecvID, hhead, recvIDLoop, if_pos rfl]
    rfl
  | cons p rest =>
    have hne : p ≠ numIds := Nat.ne_of_lt (hq.lt_of_mem p List.mem_cons_self)
    have hrecv : s.recvPid p = recvPid := h p rfl
    have hloop : s.recvIDLoop recvPid p (fuel + 1) = some (s.sendPid p) := by
      rw [recvIDLoop, if_neg hne, if_pos hrecv]
    rw [msgGetBlockByRecvID, hhead, List.headD_cons, hloop, hq.sendPid_eq,
      List.find?_cons, decide_eq_true hrecv, Option.getD_some]

theorem msgGetBlockByRecvID_eq_none (hq : s.QueueOk q) {recvPid : ℕ}
    (h : ¬ s.HeadDecides q recvPid) (fuel : ℕ) : s.msgGetBlockByRecvID recvPid fuel = none := by
  have hhead : s.head = q.headD numIds := hq.represents.head_eq
  cases q with
  | nil => exact absurd (fun p hp => absurd hp (Option.not_mem_none p)) h
  | cons p rest =>
    rw [msgGetBlockByRecvID, hhead]
    refine recvIDLoop_eq_none (Nat.ne_of_lt (hq.lt_of_mem p List.mem_cons_self)) ?_ fuel
    intro hrecv
    apply h
    rintro _ ⟨⟩
    exact hrecv

end QueueOk

/-- **Searches of the message queue.** On every well-formed queue `msg_getBlockBySendID` ends,
and finds the sender if and only if it is queued.  `msg_getBlockByRecvID` looks at the first
block only: if that decides the answer it is the right one, and otherwise the loop never
ends. -/
theorem message_searches_end (hq : s.QueueOk q) :
    (∀ sendPid, s.msgGetBlockBySendID sendPid =
      some (if sendPid ∈ q then sendPid else numIds)) ∧
    ∀ recvPid, (s.HeadDecides q recvPid → ∀ fuel, s.msgGetBlockByRecvID recvPid (fuel + 1) =
        some ((q.find? fun p => s.recvPid p = recvPid).getD numIds)) ∧
      (¬ s.HeadDecides q recvPid → ∀ fuel, s.msgGetBlockByRecvID recvPid fuel = none) :=
  ⟨hq.msgGetBlockBySendID_eq, fun _ =>
    ⟨hq.msgGetBlockByRecvID_eq, hq.msgGetBlockByRecvID_eq_none⟩⟩

def twoMessages : Msg Unit :=
  ({ ipcInit () with recvPid := fun p => p + 1 }.msgEnqueue 1).msgEnqueue 3

theorem queueOk_twoMessages : twoMessages.QueueOk [1, 3] := by
  have hempty : { ipcInit () with recvPid := fun p => p + 1 }.QueueOk [] :=
    (queueOk_ipcInit ()).congr rfl rfl
  have hfirst : (Msg.msgEnqueue _ 1).QueueOk ([] ++ [1]) := hempty.enqueue (by decide) (by decide)
  exact hfirst.enqueue (by decide) (by decide)

theorem message_searches_end_of_two : twoMessages.msgGetBlockBySendID 3 = some 3 ∧
    twoMessages.msgGetBlockByRecvID 2 1 = some 1 := by
  obtain ⟨hsend, hrecv⟩ := message_searches_end queueOk_twoMessages
  refine ⟨hsend 3, (hrecv 2).1 ?_ 0⟩
  rintro p ⟨⟩
  rfl

/-- The message for thread 4 is queued behind another one, and the search for it never
ends. -/
theorem recv_search_never_ends : 3 ∈ [1, 3] ∧ twoMessages.recvPid 3 = 4 ∧
    twoMessages.QueueOk [1, 3] ∧ ∀ fuel, twoMessages.msgGetBlockByRecvID 4 fuel = none := by
  refine ⟨by decide, rfl, queueOk_twoMessages, fun fuel => ?_⟩
  refine queueOk_twoMessages.msgGetBlockByRecvID_eq_none (fun h => ?_) fuel
  exact absurd (h 1 rfl) (by decide)

def Available (s : Msg μ) (sendPid recvPid : ℕ) : Prop :=
  sendPid ∈ s.msgList ∧ s.recvPid sendPid = recvPid

def Waiting (s : Msg μ) (_ : ℕ) : Cont → Prop
  | .send curPid => curPid ∈ s.msgList
  | .recv curPid sendPid _ _ => ¬ s.Available sendPid curPid

namespace QueueOk

theorem waiting_send (hq : s.QueueOk q) {p curPid : ℕ} :
    s.Waiting p (.send curPid) ↔ curPid ∈ q := by
  rw [Waiting, hq.msgList_eq]

theorem waiting_recv (hq : s.QueueOk q) {p curPid sendPid userRecvAddr recvLength : ℕ} :
    s.Waiting p (.recv curPid sendPid userRecvAddr recvLength) ↔
      ¬ (sendPid ∈ q ∧ s.recvPid sendPid = curPid) := by
  rw [Waiting, Available, hq.msgList_eq]

theorem waiting_congr {t : Msg μ} (hq : s.QueueOk q) (ht : t.QueueOk q)
    (hrecv : t.recvPid = s.recvPid) {p r : ℕ} {cont : Cont} :
    t.Waiting r cont ↔ s.Waiting p cont := by
  cases cont with
  | send => rw [hq.waiting_send, ht.waiting_send]
  | recv => rw [hq.waiting_recv, ht.waiting_recv, hrecv]

end QueueOk

end Msg

/-- The queue is well formed, its members are senders in progress, and every
continuation belongs to its thread. -/
structure IpcInv (conts : ℕ → Option Cont) (s : Msg μ) : Prop where
  queue : ∃ q, s.QueueOk q
  sending : ∀ p ∈ s.msgList, conts p = some (.send p)
  curPid : ∀ p cont, conts p = some cont → cont.curPid = p

theorem ipcInv_init (mem : μ) : IpcInv (fun _ => none) (Msg.ipcInit mem) where
  queue := ⟨[], Msg.queueOk_ipcInit mem⟩
  sending p hp := by
    rw [(Msg.queueOk_ipcInit mem).msgList_eq] at hp
    cases hp
  curPid _ _ hcont := nomatch hcont

/-! ## What one path can do -/

/-- The loop a data operation runs: the loop of `sys_sync_recv` from its start, or
the loop a sleeper is in. -/
def loopOf : DataOp Cont Call Empty → Option Cont
  | .call pid (.recv sendPid userRecvAddr recvLength) =>
    some (.recv pid sendPid userRecvAddr recvLength)
  | .resume _ cont => some cont
  | _ => none

inductive MsgStep (env : Env χ μ) (q : List ℕ) (s : Msg μ) :
    DataOp Cont Call Empty → List ℕ → Msg μ → Effect χ Cont Ret → Prop
  | send {pid recvPid userAddr length : ℕ} {t : Msg μ} (hfresh : pid ∉ q)
      (hqueue : t.QueueOk (q ++ [pid]))
      (hrecv : t.recvPid = update s.recvPid pid recvPid)
      (hlength : t.length = update s.length pid length) :
      MsgStep env q s (.call pid (.send recvPid userAddr length)) (q ++ [pid]) t
        ⟨[env.sendCv pid], some (.block (env.recvCv pid) (.send pid))⟩
  | wait {op : DataOp Cont Call Empty} {cont : Cont} {t : Msg μ} (hloop : loopOf op = some cont)
      (hwaiting : s.Waiting cont.curPid cont) (hqueue : t.QueueOk q)
      (hrecv : t.recvPid = s.recvPid) (hlength : t.length = s.length) :
      MsgStep env q s op q t ⟨[], some (.block (cont.chan env) cont)⟩
  | sent {op : DataOp Cont Call Empty} {curPid : ℕ} {t : Msg μ}
      (hloop : loopOf op = some (.send curPid)) (hgone : curPid ∉ q) (hqueue : t.QueueOk q)
      (hrecv : t.recvPid = s.recvPid) (hlength : t.length = s.length) :
      MsgStep env q s op q t ⟨[], some (.ret .sent)⟩
  | received {op : DataOp Cont Call Empty} {curPid sendPid userRecvAddr recvLength : ℕ}
      {t : Msg μ} (hloop : loopOf op = some (.recv curPid sendPid userRecvAddr recvLength))
      (hmem : sendPid ∈ q) (haddressed : s.recvPid sendPid = curPid)
      (hqueue : t.QueueOk (q.erase sendPid)) (hrecv : t.recvPid = s.recvPid)
      (hlength : t.length = s.length) :
      MsgStep env q s op (q.erase sendPid) t
        ⟨[env.recvCv sendPid], some (.ret (.received (min (s.length sendPid) recvLength)))⟩

section Inversion

variable {env : Env χ μ} {s t : Msg μ} {q : List ℕ}

theorem Msg.QueueOk.release (hq : s.QueueOk q) : s.release.QueueOk q := hq.congr rfl rfl

theorem Msg.QueueOk.sendLoop_eq (hq : s.QueueOk q) (env : Env χ μ) (wakes : List χ) (curPid : ℕ) :
    s.sendLoop env wakes curPid = some (if curPid ∈ q then
      ⟨s.release, wakes, .block (env.recvCv curPid) (.send curPid)⟩
      else ⟨s, wakes, .ret .sent⟩) := by
  rw [Msg.sendLoop, hq.msgGetBlockBySendID_eq, Option.map_some]
  by_cases hmem : curPid ∈ q
  · have hne : curPid ≠ numIds := Nat.ne_of_lt (hq.lt_of_mem _ hmem)
    simp [hmem, hne]
  · simp [hmem]

theorem Msg.QueueOk.sysSyncRecv_eq (hq : s.QueueOk q) (curPid sendPid userRecvAddr recvLength : ℕ) :
    s.sysSyncRecv env curPid sendPid userRecvAddr recvLength =
      some (if sendPid ∈ q ∧ s.recvPid sendPid = curPid then
        s.consume env curPid sendPid userRecvAddr recvLength
        else ⟨s.release, [], .block (env.sendCv sendPid)
          (.recv curPid sendPid userRecvAddr recvLength)⟩) := by
  rw [Msg.sysSyncRecv, hq.msgGetBlockBySendID_eq, Option.map_some]
  by_cases hmem : sendPid ∈ q
  · have hne : sendPid ≠ numIds := Nat.ne_of_lt (hq.lt_of_mem _ hmem)
    by_cases hrecv : s.recvPid sendPid = curPid <;> simp [hmem, hne, hrecv]
  · simp [hmem]

variable {op : DataOp Cont Call Empty} {effect : Effect χ Cont Ret}

theorem MsgStep.of_acquire {q' : List ℕ}
    (h : MsgStep env q { s with lock := true } op q' t effect) :
    MsgStep env q s op q' t effect := by
  cases h with
  | send hfresh hqueue hrecv hlength => exact .send hfresh hqueue hrecv hlength
  | wait hloop hwaiting hqueue hrecv hlength =>
    refine .wait hloop ?_ hqueue hrecv hlength
    rename_i cont
    cases cont <;> exact hwaiting
  | sent hloop hgone hqueue hrecv hlength => exact .sent hloop hgone hqueue hrecv hlength
  | received hloop hmem haddressed hqueue hrecv hlength =>
    exact .received hloop hmem haddressed hqueue hrecv hlength

variable {path : Path χ Cont Ret (Msg μ)}

theorem msgStep_sendLoop (hq : s.QueueOk q) {curPid : ℕ} (hloop : loopOf op = some (.send curPid))
    (hpath : s.sendLoop env [] curPid = some path) :
    ∃ q', MsgStep env q s op q' path.shared ⟨path.wakes, some path.stop⟩ := by
  rw [hq.sendLoop_eq, Option.some.injEq] at hpath
  subst hpath
  by_cases hmem : curPid ∈ q
  · rw [if_pos hmem]
    exact ⟨q, .wait hloop (hq.waiting_send.mpr hmem) hq.release rfl rfl⟩
  · rw [if_neg hmem]
    exact ⟨q, .sent hloop hmem hq rfl rfl⟩

theorem msgStep_sysSyncRecv (hq : s.QueueOk q) {curPid sendPid userRecvAddr recvLength : ℕ}
    (hloop : loopOf op = some (.recv curPid sendPid userRecvAddr recvLength))
    (hpath : s.sysSyncRecv env curPid sendPid userRecvAddr recvLength = some path) :
    ∃ q', MsgStep env q s op q' path.shared ⟨path.wakes, some path.stop⟩ := by
  rw [hq.sysSyncRecv_eq, Option.some.injEq] at hpath
  subst hpath
  by_cases havail : sendPid ∈ q ∧ s.recvPid sendPid = curPid
  · rw [if_pos havail]
    have hmin : (if s.length sendPid < recvLength then s.length sendPid else recvLength) =
        min (s.length sendPid) recvLength := by
      split <;> omega
    have hqueue : (s.consume env curPid sendPid userRecvAddr recvLength).shared.QueueOk
        (q.erase sendPid) := by
      apply Msg.QueueOk.remove _ havail.1
      exact hq.congr rfl rfl
    refine ⟨q.erase sendPid, ?_⟩
    have hstep : MsgStep env q s op (q.erase sendPid) _ _ :=
      .received hloop havail.1 havail.2 hqueue (by simp [Msg.consume]) (by simp [Msg.consume])
    rw [← hmin] at hstep
    exact hstep
  · rw [if_neg havail]
    exact ⟨q, .wait hloop (hq.waiting_recv.mpr havail) hq.release rfl rfl⟩

theorem msgStep_of_exec (hq : s.QueueOk q)
    (hfresh : ∀ pid args, op = .call pid args → pid < numIds ∧ pid ∉ q)
    (hexec : (ipcMonitor env).dataMachine.exec s op = some (t, effect)) :
    ∃ q', MsgStep env q s op q' t effect := by
  cases op with
  | call pid args =>
    obtain ⟨hlt, hmem⟩ := hfresh pid args rfl
    simp only [Monitor.dataMachine, Monitor.dataExec, Option.map_eq_some_iff,
      Prod.mk.injEq] at hexec
    obtain ⟨path, hpath, rfl, rfl⟩ := hexec
    cases args with
    | send recvPid userAddr length =>
      have hqueue := (hq.congr (t := { s with
        recvPid := update s.recvPid pid recvPid
        bufferAddr := update s.bufferAddr pid userAddr
        length := update s.length pid length }) rfl rfl).enqueue hlt hmem
      have hloop := hqueue.sendLoop_eq env [env.sendCv pid] pid
      rw [if_pos (by simp)] at hloop
      obtain rfl := Option.some.inj (hloop.symm.trans hpath)
      exact ⟨_, .send hmem hqueue.release (by simp [Msg.release])
        (by simp [Msg.release])⟩
    | recv sendPid userRecvAddr recvLength => exact msgStep_sysSyncRecv hq rfl hpath
  | resume pid cont =>
    simp only [Monitor.dataMachine, Monitor.dataExec, Option.map_eq_some_iff,
      Prod.mk.injEq] at hexec
    obtain ⟨path, hpath, rfl, rfl⟩ := hexec
    obtain ⟨s', hlock, hpath⟩ := Option.bind_eq_some_iff.mp hpath
    obtain ⟨-, hlock⟩ := Option.ite_none_left_eq_some.mp hlock
    obtain rfl := Option.some.inj hlock
    have hq' : { s with lock := true }.QueueOk q := hq.congr rfl rfl
    cases cont with
    | send curPid =>
      have hloop : loopOf (.resume pid (.send curPid)) = some (.send curPid) := rfl
      obtain ⟨q', hstep⟩ := msgStep_sendLoop hq' hloop hpath
      exact ⟨q', hstep.of_acquire⟩
    | recv curPid sendPid userRecvAddr recvLength =>
      have hloop : loopOf (.resume pid (.recv curPid sendPid userRecvAddr recvLength)) =
          some (.recv curPid sendPid userRecvAddr recvLength) := rfl
      obtain ⟨q', hstep⟩ := msgStep_sysSyncRecv hq' hloop hpath
      exact ⟨q', hstep.of_acquire⟩
  | intr irq => cases irq

end Inversion

/-! ## The sleeping discipline -/

/-- A data operation of thread `pid`: a call from user mode, or the resumption of
the continuation it left. -/
inductive Acts (conts : ℕ → Option Cont) (pid : ℕ) : DataOp Cont Call Empty → Prop
  | call {args : Call} (user : conts pid = none) : Acts conts pid (.call pid args)
  | resume {cont : Cont} (hcont : conts pid = some cont) : Acts conts pid (.resume pid cont)

section Discipline

variable {env : Env χ μ} {s t : Msg μ} {q q' : List ℕ} {conts : ℕ → Option Cont} {pid : ℕ}
  {op : DataOp Cont Call Empty} {effect : Effect χ Cont Ret}

theorem Acts.loop (hacts : Acts conts pid op) (hinv : IpcInv conts s) {cont : Cont}
    (hloop : loopOf op = some cont) :
    cont.curPid = pid ∧ (conts pid = some cont ∨ conts pid = none ∧ ∀ p, cont ≠ .send p) := by
  cases hacts with
  | @call args user =>
    cases args with
    | send => cases hloop
    | recv =>
      obtain rfl := Option.some.inj hloop
      exact ⟨rfl, Or.inr ⟨user, fun _ => by simp⟩⟩
  | resume hcont =>
    obtain rfl := Option.some.inj hloop
    exact ⟨hinv.curPid _ _ hcont, Or.inl hcont⟩

theorem Acts.fresh (hacts : Acts conts pid op) (hinv : IpcInv conts s) (hq : s.QueueOk q)
    {p : ℕ} {args : Call} (hop : op = .call p args) : p = pid ∧ p ∉ q := by
  subst hop
  cases hacts with
  | call user =>
    refine ⟨rfl, fun hmem => ?_⟩
    have hsending := hinv.sending pid (hq.msgList_eq.symm ▸ hmem)
    exact absurd (hsending.symm.trans user) (by simp)

theorem Acts.not_mem_of_recv (hacts : Acts conts pid op) (hinv : IpcInv conts s)
    (hq : s.QueueOk q) {curPid sendPid userRecvAddr recvLength : ℕ}
    (hloop : loopOf op = some (.recv curPid sendPid userRecvAddr recvLength)) : pid ∉ q := by
  intro hmem
  have hsending := hinv.sending pid (hq.msgList_eq.symm ▸ hmem)
  obtain ⟨-, hsome | ⟨hnone, -⟩⟩ := hacts.loop hinv hloop
  · exact absurd (hsending.symm.trans hsome) (by simp)
  · exact absurd (hsending.symm.trans hnone) (by simp)

theorem MsgStep.keeps (hstep : MsgStep env q s op q' t effect) (hq : s.QueueOk q) (p : ℕ)
    (cont : Cont) : KeepsWaiting (Cont.chan env) Msg.Waiting s t effect.wakes p cont := by
  intro hwaiting
  cases hstep with
  | @send pid _ _ _ _ _ hqueue hrecv =>
    cases cont with
    | send curPid =>
      have hmem := hq.waiting_send.mp hwaiting
      exact Or.inr (hqueue.waiting_send.mpr (List.mem_append_left _ hmem))
    | recv curPid sendPid =>
      by_cases heq : sendPid = pid
      · exact Or.inl (List.mem_singleton.mpr (congrArg env.sendCv heq))
      · refine Or.inr (hqueue.waiting_recv.mpr fun havail => ?_)
        rw [hrecv, update_of_ne heq] at havail
        exact hq.waiting_recv.mp hwaiting (by simpa [heq] using havail)
  | wait _ _ hqueue hrecv => exact Or.inr ((hq.waiting_congr hqueue hrecv).mpr hwaiting)
  | sent _ _ hqueue hrecv => exact Or.inr ((hq.waiting_congr hqueue hrecv).mpr hwaiting)
  | @received _ _ consumed _ _ _ _ _ _ hqueue hrecv =>
    cases cont with
    | send curPid =>
      have hmem := hq.waiting_send.mp hwaiting
      by_cases heq : curPid = consumed
      · exact Or.inl (List.mem_singleton.mpr (congrArg env.recvCv heq))
      · exact Or.inr (hqueue.waiting_send.mpr ((List.mem_erase_of_ne heq).mpr hmem))
    | recv curPid sendPid =>
      refine Or.inr (hqueue.waiting_recv.mpr fun havail => ?_)
      rw [hrecv] at havail
      exact hq.waiting_recv.mp hwaiting ⟨List.mem_of_mem_erase havail.1, havail.2⟩

theorem MsgStep.queue (hstep : MsgStep env q s op q' t effect) : t.QueueOk q' := by
  cases hstep <;> assumption

theorem MsgStep.parks (hstep : MsgStep env q s op q' t effect) (hq : s.QueueOk q)
    (hinv : IpcInv conts s) (hacts : Acts conts pid op) {chan : χ} {cont : Cont}
    (hstop : effect.stop = some (.block chan cont)) :
    chan = cont.chan env ∧ cont.curPid = pid ∧ t.Waiting pid cont := by
  cases hstep with
  | @send p _ _ _ _ hfresh hqueue =>
    obtain ⟨rfl, -⟩ := hacts.fresh hinv hq rfl
    obtain ⟨rfl, rfl⟩ := Stop.block.inj (Option.some.inj hstop)
    exact ⟨rfl, rfl, hqueue.waiting_send.mpr (by simp)⟩
  | wait hloop hwaiting hqueue hrecv =>
    obtain ⟨rfl, rfl⟩ := Stop.block.inj (Option.some.inj hstop)
    exact ⟨rfl, (hacts.loop hinv hloop).1, (hq.waiting_congr hqueue hrecv).mpr hwaiting⟩
  | sent | received => cases hstop

theorem MsgStep.inv (hstep : MsgStep env q s op q' t effect) (hq : s.QueueOk q)
    (hinv : IpcInv conts s) (hacts : Acts conts pid op) :
    IpcInv (update conts pid effect.contAfter) t where
  queue := ⟨q', hstep.queue⟩
  sending p hp := by
    rw [hstep.queue.msgList_eq] at hp
    have hold : ∀ p ∈ q, conts p = some (.send p) := fun p hp =>
      hinv.sending p (hq.msgList_eq.symm ▸ hp)
    cases hstep with
    | @send p' _ _ _ _ hfresh hqueue =>
      obtain ⟨rfl, -⟩ := hacts.fresh hinv hq rfl
      by_cases heq : p = p'
      · subst heq
        exact update_self _ _ _
      · rw [update_of_ne heq]
        exact hold p (by simpa [heq] using hp)
    | wait hloop =>
      by_cases heq : p = pid
      · subst heq
        obtain ⟨-, hsome | ⟨hnone, -⟩⟩ := hacts.loop hinv hloop
        · rw [update_self]
          exact hsome.symm.trans (hold p hp)
        · exact absurd ((hold p hp).symm.trans hnone) (by simp)
      · rw [update_of_ne heq]
        exact hold p hp
    | sent hloop hgone =>
      have hne : p ≠ pid := by
        rintro rfl
        obtain rfl := (hacts.loop hinv hloop).1
        exact hgone hp
      rw [update_of_ne hne]
      exact hold p hp
    | received hloop =>
      have hmem := List.mem_of_mem_erase hp
      have hne : p ≠ pid := by
        rintro rfl
        exact hacts.not_mem_of_recv hinv hq hloop hmem
      rw [update_of_ne hne]
      exact hold p hmem
  curPid p cont hcont := by
    by_cases heq : p = pid
    · subst heq
      rw [update_self] at hcont
      unfold Effect.contAfter at hcont
      split at hcont
      · next chan cont' hstop =>
        obtain rfl := Option.some.inj hcont
        exact (hstep.parks hq hinv hacts hstop).2.1
      · cases hcont
    · rw [update_of_ne heq] at hcont
      exact hinv.curPid p cont hcont

theorem MsgStep.pathDiscipline {path : Path χ Cont Ret (Msg μ)}
    (hstep : MsgStep env q s op q' path.shared ⟨path.wakes, some path.stop⟩) (hq : s.QueueOk q)
    (hinv : IpcInv conts s) (hacts : Acts conts pid op) :
    PathDiscipline IpcInv (Cont.chan env) Msg.Waiting conts s pid path where
  inv := path.contAfter_effect ▸ hstep.inv hq hinv hacts
  keeps p cont _ _ := hstep.keeps hq p cont
  parks chan cont hstop := by
    obtain ⟨hchan, -, hwaiting⟩ := hstep.parks hq hinv hacts (congrArg some hstop)
    exact ⟨hchan, hwaiting⟩

theorem ipcDiscipline [DecidableEq χ] (env : Env χ μ) :
    WaitDiscipline IpcInv (Cont.chan env) Msg.Waiting (ipcMonitor env) Kernel.ProcessStep where
  noSigkill hop := hop.noSigkill
  process hop := hop
  call := by
    intro k args path _ hlt hinv user hpath
    obtain ⟨q, hq⟩ := hinv.queue
    have hacts : Acts k.cont k.sched.curid (.call k.sched.curid args) := .call user
    obtain ⟨q', hstep⟩ := msgStep_of_exec hq (fun p args' hop => by
      obtain ⟨rfl, hmem⟩ := hacts.fresh hinv hq hop
      exact ⟨hlt, hmem⟩) (Monitor.dataExec_call hpath)
    exact hstep.pathDiscipline hq hinv hacts
  resume := by
    intro k cont path hinv hcont hpath
    obtain ⟨q, hq⟩ := hinv.queue
    have hacts : Acts k.cont k.sched.curid (.resume k.sched.curid cont) := .resume hcont
    obtain ⟨q', hstep⟩ := msgStep_of_exec hq (by simp) (Monitor.dataExec_resume hpath)
    exact hstep.pathDiscipline hq hinv hacts
  intr := by
    intro k irq
    cases irq

end Discipline

end MCertikos.Ipc
