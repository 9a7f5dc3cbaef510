/-
# Disks that answer with an error

After a command the disks set a status, and `ide_wait` returns -1 if it has `IDE_DF` or `IDE_ERR`
in it.
-/

import MCertikos.BufCache.Coherence

namespace MCertikos.BufCache

open Math FS Function Shared

structure Noted extends World where
  /-- The last read into the buffer was answered with an error. -/
  failed : Fin nbuf → Bool

def Noted.note (n : Noted) (status : Status) : Fin nbuf → Bool :=
  match n.shared.idequeue with
  | [] => n.failed
  | b :: _ => update n.failed b (status = .error)

def Noted.step : Semantics iface Noted (Fin nbuf) Stop := fun pid a n =>
  match BufCache.step pid a n.toWorld with
  | .done w wakes r => .done { n with toWorld := w } wakes r
  | .wait chan => .wait chan
  | .halt reason => .halt reason

def failing : System iface ClientOp Status (Option (Fin nbuf)) Noted (Fin nbuf) Stop where
  program := ClientOp.code
  act := Noted.step
  intr status n :=
    ({ n with shared := (n.shared.complete status).1, failed := n.note status },
      (n.shared.complete status).2)

def Noted.boot (havedisk1 : Bool) (disk : Addr → Block) (log : Log) : Noted :=
  ⟨.boot havedisk1 disk log, fun _ => false⟩

def Act.Reads : Act → Prop
  | .get _ | .valid _ | .submit _ | .wait _ | .release _ => True
  | _ => False

def ClientOp.Reads : ClientOp → Prop
  | .read _ | .release _ => True
  | _ => False

instance : (op : ClientOp) → Decidable op.Reads
  | .read _ | .release _ => isTrue trivial
  | .write _ | .logWrite _ | .modify _ _ | .changeLog _ => isFalse id

theorem ClientOp.Reads.all {op : ClientOp} (h : op.Reads) : op.code.All Act.Reads := by
  cases op with
  | read key =>
    refine Task.all_bind (Task.all_bind (Task.all_perform trivial) fun b =>
      Task.all_bind (Task.all_perform trivial) fun valid => Task.all_ite (Task.all_pure b) ?_)
      fun b => Task.all_pure (some b)
    exact Task.all_bind (Task.all_bind (Task.all_perform trivial) fun _ =>
      Task.all_perform trivial) fun _ => Task.all_pure b
  | release b => exact Task.all_bind (Task.all_perform trivial) fun _ => Task.all_pure none
  | _ => exact h.elim

/-! ## The invariant -/

def Hold.Reads (buf : Buf) (queued : Prop) : Hold → Prop
  | .none => ¬ queued
  | .checking key => buf.toKey = key ∧ ¬ queued
  | .fetching key => buf.toKey = key ∧ ¬ queued ∧ buf.valid = false
  | .writing _ => False
  | .waiting key => buf.toKey = key ∧ (queued ↔ buf.valid = false)
  | .held key _ => buf.toKey = key ∧ ¬ queued ∧ buf.valid = true

theorem Hold.Reads.waiting {hold : Hold} {buf : Buf} (h : hold.Reads buf True) :
    ∃ key, hold = .waiting key := by
  cases hold with
  | none => exact absurd trivial h
  | checking key => exact absurd trivial h.2
  | writing key => exact h.elim
  | waiting key => exact ⟨key, rfl⟩
  | _ => exact absurd trivial h.2.1

/-- A valid buffer holds its sector, unless the last read into it was answered with an error. -/
structure Copies (disk : Addr → Block) (failed : Bool) (buf : Buf) : Prop where
  clean : buf.dirty = false
  data : failed = false → buf.valid = true → buf.data = disk buf.addr

def copying (disk : Addr → Block) (failed : Fin nbuf → Bool) : Says := fun b hold buf queued =>
  hold.Reads buf queued ∧ Copies disk (failed b) buf

/-- The invariant of readers: what is said of the disk is that it stays as it is. -/
structure Reading (disk : Addr → Block) (n : Noted) : Prop
    extends Tracks (copying disk n.failed) n.toWorld where
  unchanged : n.shared.disk = disk

namespace Reading

variable {disk : Addr → Block} {n : Noted} {pid : ℕ} {b : Fin nbuf} {key : Key} {s' : Shared}
  {wakes : List (Fin nbuf)}

theorem get (h : Reading disk n) (heffect : n.shared.bufcacheGet key = .done s' wakes b) :
    Reading disk ⟨⟨s', update n.proc pid (update (n.proc pid) b (.checking key))⟩, n.failed⟩ ∧
      n.proc pid b = .none := by
  obtain ⟨hfree, hs'⟩ := bufcacheGet_done heffect
  obtain ⟨hqueued, hcopies⟩ : copying .. := h.free hfree
  refine ⟨?_, h.not_held hfree pid⟩
  obtain ⟨hkey, rfl⟩ | ⟨-, -, rfl⟩ := hs'
  · exact ⟨h.toTracks.set (fun q _ => h.not_held hfree q) hqueued rfl rfl rfl
      (fun _ _ _ _ hc => hc) (by simp) ⟨⟨hkey, hqueued⟩, hcopies.clean, hcopies.data⟩, h.unchanged⟩
  · exact ⟨h.toTracks.set (fun q _ => h.not_held hfree q) hqueued rfl rfl rfl
      (fun _ _ _ _ hc => hc) (by simp) ⟨⟨rfl, hqueued⟩, rfl, fun _ hvalid => by cases hvalid⟩,
      h.unchanged⟩

theorem complete (h : Reading disk n) (status : Status) : Reading disk
      ⟨⟨(n.shared.complete status).1, n.proc⟩, n.note status⟩ := by
  cases hqueue : n.shared.idequeue with
  | nil =>
    rw [complete_nil status h.drive hqueue, Noted.note, hqueue]
    exact h
  | cons b rest =>
    obtain ⟨p, key, hp, ⟨hkey, -⟩, hcopies⟩ := h.waiting_of_queued (b := b)
      (fun _ hok => Hold.Reads.waiting hok.1) (hqueue ▸ List.mem_cons_self)
    have hnote : n.note status = update n.failed b (status = .error) := by
      rw [Noted.note, hqueue]
    have hok : copying disk (n.note status) b (.waiting key) (n.shared.answer b status) False := by
      refine ⟨⟨hkey, by simp [answer, Buf.answered]⟩, rfl, fun hready _ => ?_⟩
      cases status with
      | ready => simp [answer, Buf.answered, hcopies.clean, h.unchanged]
      | error => simp [hnote] at hready
    refine ⟨h.toTracks.complete status hqueue hp (fun c _ _ hc hok => ?_) hok, ?_⟩
    · simpa [copying, hnote, hc] using hok
    · dsimp only
      rw [complete_cons status h.drive hqueue]
      simpa [hcopies.clean] using h.unchanged

theorem effect (h : Reading disk n) {a : Act} {r : a.Res} (hok : (n.proc pid).Ok a)
    (hreads : a.Reads) (heffect : n.shared.effect a = .done s' wakes r) :
    Reading disk ⟨⟨s', update n.proc pid ((n.proc pid).after a r)⟩, n.failed⟩ ∧
      (n.proc pid).Allow a r := by
  cases a with
  | get key => exact h.get heffect
  | valid b =>
    obtain ⟨key, hb⟩ := hok
    obtain ⟨⟨hkey, hqueued⟩, hcopies⟩ : copying .. := h.at_hold hb (by simp)
    have hne : n.proc pid b ≠ .none := by simp [hb]
    cases heffect
    refine ⟨⟨?_, h.unchanged⟩, trivial⟩
    simp only [Proc.after, hb]
    cases hvalid : (n.shared.bufs b).valid with
    | true => exact h.toTracks.move hne (by simp) hqueued ⟨⟨hkey, hqueued, hvalid⟩, hcopies⟩
    | false => exact h.toTracks.move hne (by simp) hqueued ⟨⟨hkey, hqueued, hvalid⟩, hcopies⟩
  | submit b =>
    obtain ⟨key, hb | hb⟩ := hok
    · obtain ⟨⟨hkey, hqueued, hvalid⟩, hcopies⟩ : copying .. := h.at_hold hb (by simp)
      have hne : n.proc pid b ≠ .none := by simp [hb]
      obtain ⟨htracks, queue, drive, rfl⟩ := h.toTracks.submit hne hqueued
        ⟨⟨hkey, by simp [hvalid]⟩, hcopies⟩ heffect
      simpa only [Proc.after, hb] using ⟨⟨htracks, h.unchanged⟩, trivial⟩
    · have hbuf : copying .. := h.at_hold hb (by simp)
      exact hbuf.1.elim
  | wait b =>
    obtain ⟨key, hb⟩ := hok
    obtain ⟨⟨hkey, hqueued⟩, hcopies⟩ : copying .. := h.at_hold hb (by simp)
    simp only [Shared.effect] at heffect
    split at heffect
    · next hsynced =>
      cases heffect
      have hnotQueued : b ∉ n.shared.idequeue := by simp [hqueued, hsynced.1]
      refine ⟨⟨?_, h.unchanged⟩, trivial⟩
      simp only [Proc.after, hb]
      exact h.toTracks.move (by simp [hb]) (by simp) hnotQueued
        ⟨⟨hkey, hnotQueued, hsynced.1⟩, hcopies⟩
    · cases heffect
  | release b =>
    obtain ⟨key, hb⟩ := hok
    obtain ⟨⟨hkey, hqueued, hvalid⟩, hcopies⟩ : copying .. := h.at_hold hb (by simp)
    have hne : n.proc pid b ≠ .none := by simp [hb]
    simp only [Shared.effect, bufcacheRelease] at heffect
    split at heffect <;> cases heffect
    exact ⟨⟨h.toTracks.set (fun q hq => h.others hne hq) hqueued rfl rfl rfl
      (fun _ _ _ _ hc => hc) (by simp) ⟨hqueued, hcopies.clean, hcopies.data⟩, h.unchanged⟩,
      trivial⟩
  | _ => exact hreads.elim

end Reading

/-! ## The readers -/

def readContract : System.Contract ClientOp (Option (Fin nbuf)) Proc where
  pre op l := op.Reads ∧ contract.pre op l
  post := contract.post

def reading : Discipline iface Proc :=
  { discipline with ok := fun l a => discipline.ok l a ∧ a.Reads }

theorem lawful_readers (disk : Addr → Block) :
    System.Lawful failing (fun _ => reading) readContract (fun n => n.proc) Proc.Idle
      (Reading disk) fun _ _ _ _ => True where
  start op l hl hpre := Task.wp_restrict (lawful_clients.start op l hl hpre.2) hpre.1.all
  ret op value l hpost := lawful_clients.ret op value l hpost
  act {op n n' pid a wakes r} hinv hok hact _ := by
    change Noted.step pid a n = _ at hact
    unfold Noted.step step at hact
    cases heffect : n.shared.effect a with
    | done shared wakes' r' =>
      rw [heffect] at hact
      cases hact
      obtain ⟨hinv', hallow⟩ := hinv.effect hok.1 hok.2 heffect
      exact ⟨hinv', hallow, rfl⟩
    | _ =>
      rw [heffect] at hact
      cases hact
  intr {status n} hinv := ⟨hinv.complete status, rfl⟩

theorem Reading.boot (havedisk1 : Bool) (disk : Addr → Block) (log : Log) :
    Reading disk (.boot havedisk1 disk log) := by
  obtain ⟨links, hshared, -⟩ := boot_eq havedisk1 disk log
  rw [Noted.boot, World.boot] at *
  dsimp only at hshared
  rw [hshared]
  exact ⟨⟨⟨by simp, fun hp => absurd rfl hp⟩, fun hp => absurd rfl hp,
    fun _ => ⟨by simp [zero, Hold.Reads], rfl, fun _ hvalid => by cases hvalid⟩, List.nodup_nil,
    rfl⟩, rfl⟩

def ReadsOnly (k : Threads iface ClientOp (Option (Fin nbuf)) Noted) :
    ThreadOp ClientOp Status → Prop
  | .start pid op => readContract.pre op (k.state.proc pid)
  | _ => True

instance (k : Threads iface ClientOp (Option (Fin nbuf)) Noted) :
    (op : ThreadOp ClientOp Status) → Decidable (ReadsOnly k op)
  | .start pid op => inferInstanceAs (Decidable (op.Reads ∧ contract.pre op (k.state.proc pid)))
  | .act _ | .intr _ => isTrue trivial

/-- **A read without an error yields the sector.** `bufcache_read` returns a busy and valid
buffer of the sector it was asked for; and unless the last read into that buffer was answered
with an error, it holds the content of the sector. -/
theorem read_holds_sector {havedisk1 : Bool} {disk : Addr → Block} {log : Log}
    {trace : List (ThreadOp ClientOp Status × Option (Option (Fin nbuf)))}
    {k : Threads iface ClientOp (Option (Fin nbuf)) Noted}
    (run : failing.machine.Run ReadsOnly (.boot (.boot havedisk1 disk log)) trace k)
    {p : ℕ} {key : Key} {value : Option (Fin nbuf)}
    (hreturns : k.running p = some (.read key, .ret value)) :
    k.state.shared.disk = disk ∧ ∃ b, value = some b ∧ (k.state.shared.bufs b).toKey = key ∧
      (k.state.shared.bufs b).busy = true ∧ (k.state.shared.bufs b).valid = true ∧
      (k.state.failed b = false → (k.state.shared.bufs b).data = disk key.addr) := by
  have hguard : ∀ k op, ReadsOnly k op →
      failing.Respects readContract (fun n => n.proc) (fun _ _ _ _ => True) k op := by
    intro k op hop
    cases op with
    | start pid op => exact hop
    | act pid => exact fun _ _ => trivial
    | intr status => trivial
  have horder := (lawful_readers disk).inOrder_of_run run hguard (.boot havedisk1 disk log)
    fun _ _ => .inl rfl
  have hinv := horder.state
  obtain ⟨-, b, rfl, hb⟩ := horder.task p _ _ hreturns
  obtain ⟨⟨hkey, -, hvalid⟩, hcopies⟩ : copying .. := hinv.at_hold hb (by simp)
  have hheld : k.state.proc p b ≠ .none := by simp [hb]
  refine ⟨hinv.unchanged, b, rfl, hkey, hinv.busy hheld, hvalid, fun hok => ?_⟩
  rw [hcopies.data hok hvalid, hkey]

def request (p : ℕ) (key : Key) (status : Status) : List (ThreadOp ClientOp Status) :=
  [.start p (.read key), .act p, .act p, .act p, .intr status, .act p]

def numbered : Addr → Block := fun addr _ => addr.2.setWidth 8

theorem read_holds_sector_of_hit :
    ∃ (trace : List (ThreadOp ClientOp Status × Option (Option (Fin nbuf))))
      (k : Threads iface ClientOp (Option (Fin nbuf)) Noted),
      failing.machine.Run ReadsOnly (.boot (.boot true numbered (.boot ⟨0, 0⟩))) trace k ∧
      k.running 2 = some (.read ⟨1, 5⟩, .ret (some 0)) ∧ k.state.failed 0 = false ∧
      (k.state.shared.bufs 0).data = numbered (Key.addr ⟨1, 5⟩) := by
  have heval : ∃ x ∈ (failing.machine.guarded ReadsOnly).runAll
      (.boot (.boot true numbered (.boot ⟨0, 0⟩)))
      (request 1 ⟨1, 5⟩ .ready ++ [.act 1, .start 1 (.release 0), .act 1, .act 1,
        .start 2 (.read ⟨1, 5⟩), .act 2, .act 2]),
      returning x.1 2 = some (⟨1, 5⟩, some 0) ∧ x.1.state.failed 0 = false := by
    decide +kernel
  obtain ⟨⟨k, outs⟩, hrunAll, hreturning, hok⟩ := heval
  have hrun := Machine.run_of_guarded hrunAll
  have hreturns := running_of_returning hreturning
  obtain ⟨-, b, hb, -, -, -, hdata⟩ := read_holds_sector hrun hreturns
  cases hb
  exact ⟨_, k, hrun, hreturns, hok, hdata hok⟩

/-- The disks answer a read of sector 77 with an error, and `bufcache_read` returns a valid buffer
with the data of sector 0, which a second process finds in the cache. -/
theorem failed_read_is_trusted :
    ∃ (trace : List (ThreadOp ClientOp Status × Option (Option (Fin nbuf))))
      (k : Threads iface ClientOp (Option (Fin nbuf)) Noted),
      failing.machine.Run ReadsOnly (.boot (.boot true numbered (.boot ⟨0, 0⟩))) trace k ∧
      k.running 2 = some (.read ⟨1, 77⟩, .ret (some 0)) ∧
      (k.state.shared.bufs 0).valid = true ∧
      (k.state.shared.bufs 0).data ≠ numbered (Key.addr ⟨1, 77⟩) ∧
      (k.state.shared.bufs 0).data 0 = numbered (Key.addr ⟨1, 0⟩) 0 := by
  have heval : ∃ x ∈ (failing.machine.guarded ReadsOnly).runAll
      (.boot (.boot true numbered (.boot ⟨0, 0⟩)))
      ((List.range nbuf).flatMap (fun i => request 1 ⟨1, BitVec.ofNat 32 i⟩ .ready ++ [.act 1]) ++
        [.start 1 (.release 0), .act 1, .act 1] ++ request 1 ⟨1, 77⟩ .error ++
        [.act 1, .start 1 (.release 0), .act 1, .act 1,
          .start 2 (.read ⟨1, 77⟩), .act 2, .act 2]),
      returning x.1 2 = some (⟨1, 77⟩, some 0) ∧ (x.1.state.shared.bufs 0).valid = true ∧
      (x.1.state.shared.bufs 0).data 0 ≠ numbered (Key.addr ⟨1, 77⟩) 0 ∧
      (x.1.state.shared.bufs 0).data 0 = numbered (Key.addr ⟨1, 0⟩) 0 := by
    decide +kernel
  obtain ⟨⟨k, outs⟩, hrunAll, hreturning, hvalid, hdata, hold⟩ := heval
  exact ⟨_, k, Machine.run_of_guarded hrunAll, running_of_returning hreturning, hvalid,
    fun heq => hdata (congrFun heq 0), hold⟩

end MCertikos.BufCache
