/-
# The buffer cache and the disk below it

The model of `bufcache.c` and of the part of `ide.c` it rests on, with device numbers and with the
links of the list of buffers, down to what `ide_start` sends to the disks.
-/

import MCertikos.Math.Ring
import MCertikos.Math.Threads
import MCertikos.Sysfile.Block

namespace MCertikos.BufCache

open Math FS Function

/-- What a buffer is for: a sector of a device. -/
@[ext] structure Key where
  dev : BitVec 32
  sector : Sector
  deriving DecidableEq, Repr

/-- `struct buf`, each of its flags as a field. -/
structure Buf extends Key where
  busy : Bool
  valid : Bool
  dirty : Bool
  data : Block

/-- What the registers 0x1f3 to 0x1f6 take: one bit for the disk and 28 for the sector. -/
abbrev Addr := BitVec 1 × BitVec 28

/-- Where `ide_start` sends a request: it cuts off the higher bits. -/
def Key.addr (key : Key) : Addr := (key.dev.setWidth 1, key.sector.setWidth 28)

/-- `addr` cuts nothing off. -/
def Key.Named (key : Key) : Prop := key.dev < 2 ∧ key.sector < 0x10000000

instance (key : Key) : Decidable key.Named := inferInstanceAs (Decidable (_ ∧ _))

/-- A command that the disks are at work on; a write has taken its data already. -/
inductive Command
  | read (addr : Addr)
  | write (addr : Addr) (data : Block)

/-- The status of the disks after a command, as `ide_wait` tells it apart. -/
inductive Status
  | ready
  /-- `IDE_DF` or `IDE_ERR` is set. -/
  | error
  deriving DecidableEq, Repr

/-- `ide_start` writes a dirty buffer and reads any other. -/
def Buf.command (buf : Buf) : Command :=
  if buf.dirty then .write buf.addr buf.data else .read buf.addr

instance : NeZero nbuf := ⟨by decide⟩

/-- A node of the list of buffers; `none` is `bcache.head`. -/
abbrev Node := Option (Fin nbuf)

/-- The buffer cache, the queue of `ide.c` and the disks. -/
structure Shared where
  havedisk1 : Bool
  bufs : Fin nbuf → Buf
  links : RingLinks Node
  idequeue : List (Fin nbuf)
  drive : Option Command
  disk : Addr → Block
  log : Log
  /-- What was last written to each sector through the cache, or else was there at first. -/
  store : Key → Block

/-- How far a process is with a buffer whose `B_BUSY` it has set. -/
inductive Hold
  | none
  /-- `bufcache_get` has returned it. -/
  | checking (key : Key)
  /-- It is to be read. -/
  | fetching (key : Key)
  /-- It is to be written. -/
  | writing (key : Key)
  /-- The process is in the loop of `ide_rw`. -/
  | waiting (key : Key)
  /-- `bufcache_read` has returned it; noted is whether it was changed since it was written. -/
  | held (key : Key) (changed : Bool)
  deriving DecidableEq, Repr

def Hold.isHeld : Hold → Bool
  | .held _ _ => true
  | _ => false

def Hold.isClean : Hold → Bool
  | .held _ changed => !changed
  | _ => false

/-- Note whether the data was changed since it was written. -/
def Hold.setChanged (hold : Hold) (changed : Bool) : Hold :=
  match hold with
  | .held key _ => .held key changed
  | hold => hold

abbrev Proc := Fin nbuf → Hold

structure World where
  shared : Shared
  proc : ℕ → Proc

/-- The panics. -/
inductive Stop
  /-- `bufcache_get`: "no buffers". -/
  | noBuffers
  /-- `bufcache_write`: "bwrite". -/
  | bwrite
  /-- `bufcache_release`: "brelse". -/
  | brelse
  /-- `ide_rw`: "buf not busy". -/
  | bufNotBusy
  /-- `ide_rw`: "nothing to do". -/
  | nothingToDo
  /-- `ide_rw`: "ide disk 1 not present". -/
  | noDisk1
  /-- `log_write`: "too big a transaction". -/
  | tooBigTransaction
  /-- `log_write`: "write outside of trans". -/
  | writeOutsideTrans
  deriving DecidableEq, Repr

/-- The pieces of the code between which others can run. -/
inductive Act
  | get (key : Key)
  /-- `b->flags & B_VALID`. -/
  | valid (b : Fin nbuf)
  /-- `bufcache_write`: the check that the buffer is busy, and `b->flags |= B_DIRTY`. -/
  | write (b : Fin nbuf)
  /-- `ide_rw` up to its loop. -/
  | submit (b : Fin nbuf)
  /-- The loop of `ide_rw`. -/
  | wait (b : Fin nbuf)
  | release (b : Fin nbuf)
  /-- Change `b->data`. -/
  | modify (b : Fin nbuf) (f : Block → Block)
  /-- `b->dev` and `b->sector`. -/
  | key (b : Fin nbuf)
  | data (b : Fin nbuf)
  /-- `b->flags |= B_DIRTY` in `log_write`. -/
  | pin (b : Fin nbuf)
  /-- The fields of `log`. -/
  | logGet
  /-- Change `log`. -/
  | logModify (f : Log → Log)
  | stop (reason : Stop)

/-- What an action returns. -/
@[reducible] def Act.Res : Act → Type
  | .get _ => Fin nbuf
  | .valid _ => Bool
  | .key _ => Key
  | .data _ => Block
  | .logGet => Log
  | .stop _ => Empty
  | _ => Unit

@[reducible] def iface : Interface := ⟨Act, Act.Res⟩

abbrev Code (β : Type) := Task iface β

/-! ## What the actions do -/

/-- What the process is up to with each buffer after an action. -/
def Proc.after (l : Proc) : (a : Act) → a.Res → Proc
  | .get key, b => update l b (.checking key)
  | .valid b, valid =>
    match l b with
    | .checking key => update l b (if valid then .held key false else .fetching key)
    | _ => l
  | .write b, _ =>
    match l b with
    | .held key _ => update l b (.writing key)
    | _ => l
  | .submit b, _ =>
    match l b with
    | .fetching key => update l b (.waiting key)
    | .writing key => update l b (.waiting key)
    | _ => l
  | .wait b, _ =>
    match l b with
    | .waiting key => update l b (.held key false)
    | _ => l
  | .release b, _ => update l b .none
  | .modify b _, _ => update l b ((l b).setChanged true)
  | .pin b, _ => update l b ((l b).setChanged false)
  | _, _ => l

namespace Shared

variable (s : Shared)

def setBuf (b : Fin nbuf) (f : Buf → Buf) : Shared :=
  { s with bufs := update s.bufs b (f (s.bufs b)) }

/-- Set `B_DIRTY`, which counts as the write to the sector. -/
def setDirty (b : Fin nbuf) : Shared :=
  { s.setBuf b fun buf => { buf with dirty := true } with
    store := update s.store (s.bufs b).toKey (s.bufs b).data }

/-- A loop of `bufcache_get` around the list, from the head. -/
def search (step : Node → Node) (test : Buf → Bool) : Option (Fin nbuf) :=
  let found := Links.search none step (fun node => node.any fun b => test (s.bufs b)) nbuf
    (step none)
  (found.getD none).join

def bufcacheGet (key : Key) : Outcome Shared (Fin nbuf) Stop (Fin nbuf) :=
  match s.search s.links.next fun buf => buf.toKey = key with
  | some b =>
    if (s.bufs b).busy then .wait b
    else .done (s.setBuf b fun buf => { buf with busy := true }) [] b
  | none =>
    match s.search s.links.prev fun buf => !buf.busy && !buf.dirty with
    | some b =>
      .done (s.setBuf b fun buf =>
        { buf with toKey := key, busy := true, valid := false, dirty := false }) [] b
    | none => .halt .noBuffers

def bufcacheRelease (b : Fin nbuf) : Outcome Shared (Fin nbuf) Stop Unit :=
  if (s.bufs b).busy then
    .done { s.setBuf b fun buf => { buf with busy := false } with
      links := (s.links.unlink (some b)).insertFront none (some b) } [b] ()
  else .halt .brelse

def ideStart (b : Fin nbuf) : Shared := { s with drive := some (s.bufs b).command }

/-- `ide_rw` up to its loop. -/
def ideSubmit (b : Fin nbuf) : Outcome Shared (Fin nbuf) Stop Unit :=
  let buf := s.bufs b
  if buf.busy = false then .halt .bufNotBusy
  else if buf.valid ∧ buf.dirty = false then .halt .nothingToDo
  else if buf.dev ≠ 0 ∧ s.havedisk1 = false then .halt .noDisk1
  else
    let s' := { s with idequeue := s.idequeue ++ [b] }
    .done (if s.idequeue = [] then s'.ideStart b else s') [] ()

/-- The disks carry out their command and have its data ready. -/
def finish : Shared × Block :=
  match s.drive with
  | some (.read addr) => ({ s with drive := none }, s.disk addr)
  | some (.write addr data) =>
    ({ s with drive := none, disk := update s.disk addr data }, data)
  | none => (s, fun _ => 0)

/-- `ide_intr`, which takes the data of a read unless `ide_wait` returns an error. -/
def ideIntr (input : Option Block) : Shared × List (Fin nbuf) :=
  match s.idequeue with
  | [] => (s, [])
  | b :: rest =>
    let s := { s with idequeue := rest }
    let s := s.setBuf b fun buf => { buf with
      data := if buf.dirty then buf.data else input.getD buf.data
      valid := true
      dirty := false }
    (match rest with
      | [] => s
      | next :: _ => s.ideStart next, [b])

/-- The disks complete their command, and the interrupt follows. -/
def complete (status : Status) : Shared × List (Fin nbuf) :=
  let (s, input) := s.finish
  s.ideIntr (if status = .error then none else some input)

def effect : (a : Act) → Outcome Shared (Fin nbuf) Stop a.Res
  | .get key => s.bufcacheGet key
  | .valid b => .done s [] (s.bufs b).valid
  | .write b => if (s.bufs b).busy then .done (s.setDirty b) [] () else .halt .bwrite
  | .submit b => s.ideSubmit b
  | .wait b =>
    if (s.bufs b).valid ∧ (s.bufs b).dirty = false then .done s [] () else .wait b
  | .release b => s.bufcacheRelease b
  | .modify b f => .done (s.setBuf b fun buf => { buf with data := f buf.data }) [] ()
  | .key b => .done s [] (s.bufs b).toKey
  | .data b => .done s [] (s.bufs b).data
  | .pin b => .done (s.setDirty b) [] ()
  | .logGet => .done s [] s.log
  | .logModify f => .done { s with log := f s.log } [] ()
  | .stop reason => .halt reason

end Shared

def step : Semantics iface World (Fin nbuf) Stop := fun pid a w =>
  match w.shared.effect a with
  | .done shared wakes r =>
    .done ⟨shared, update w.proc pid ((w.proc pid).after a r)⟩ wakes r
  | .wait chan => .wait chan
  | .halt reason => .halt reason

/-! ## The code -/

def act (a : Act) : Code a.Res := Task.perform (I := iface) a

def stop {β : Type} (reason : Stop) : Code β :=
  Task.act (I := iface) (.stop reason) fun r => nomatch r

def ideRw (b : Fin nbuf) : Code Unit := do
  act (.submit b)
  act (.wait b)

def bufcacheRead (key : Key) : Code (Fin nbuf) := do
  let b ← act (.get key)
  let valid ← act (.valid b)
  if valid then return b
  else
    ideRw b
    return b

def bufcacheWrite (b : Fin nbuf) : Code Unit := do
  act (.write b)
  ideRw b

def logHeader (f : LogHeader → LogHeader) : Code Unit :=
  act (.logModify fun log => { log with lh := f log.lh })

def logWrite (b : Fin nbuf) : Code Unit := do
  let log ← act .logGet
  if log.Full then stop .tooBigTransaction
  else if log.busy = false then stop .writeOutsideTrans
  else
    let key ← act (.key b)
    let i := log.slot key.sector
    logHeader (Sysfile.recordSector i key.sector)
    let lbuf ← bufcacheRead ⟨key.dev, log.slotAddr i⟩
    let data ← act (.data b)
    act (.modify lbuf fun _ => data)
    bufcacheWrite lbuf
    act (.release lbuf)
    logHeader (Sysfile.countSlot i)
    act (.pin b)

/-! ## Clients -/

/-- What a client of the buffer cache does.  Whatever else changes the log, which `log_write`
reads, is a change of the log. -/
inductive ClientOp
  | read (key : Key)
  | write (b : Fin nbuf)
  | release (b : Fin nbuf)
  | logWrite (b : Fin nbuf)
  | modify (b : Fin nbuf) (f : Block → Block)
  | changeLog (f : Log → Log)

def ClientOp.code : ClientOp → Code (Option (Fin nbuf))
  | .read key => do return some (← bufcacheRead key)
  | .write b => do
    bufcacheWrite b
    return none
  | .release b => do
    act (.release b)
    return none
  | .logWrite b => do
    BufCache.logWrite b
    return none
  | .modify b f => do
    act (.modify b f)
    return none
  | .changeLog f => do
    act (.logModify f)
    return none

/-- The clients, with disks that report no error. -/
def system : System iface ClientOp Unit (Option (Fin nbuf)) World (Fin nbuf) Stop where
  program := ClientOp.code
  act := step
  intr _ w := (⟨(w.shared.complete .ready).1, w.proc⟩, (w.shared.complete .ready).2)

/-! ## The start -/

/-- The loop of `bufcache_init`. -/
def Shared.initBufs (s : Shared) : List (Fin nbuf) → Shared
  | [] => s
  | b :: bs =>
    let s := { s with links := s.links.insertFront none (some b) }
    Shared.initBufs (s.setBuf b fun buf => { buf with dev := -1 }) bs

def Shared.bufcacheInit (s : Shared) : Shared :=
  let links : RingLinks Node :=
    ⟨update s.links.next none none, update s.links.prev none none⟩
  { s with links := links }.initBufs (List.finRange nbuf)

/-- Static data, before `bufcache_init`. -/
def Shared.zero (havedisk1 : Bool) (disk : Addr → Block) (log : Log) : Shared where
  havedisk1 := havedisk1
  bufs _ := ⟨⟨0, 0⟩, false, false, false, fun _ => 0⟩
  links := ⟨fun _ => none, fun _ => none⟩
  idequeue := []
  drive := none
  disk := disk
  log := log
  store key := disk key.addr

def World.boot (havedisk1 : Bool) (disk : Addr → Block) (log : Log) : World :=
  ⟨(Shared.zero havedisk1 disk log).bufcacheInit, fun _ _ => .none⟩

end MCertikos.BufCache
