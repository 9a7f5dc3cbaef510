/-
# The shared state of the file system

The code is cut into actions.
-/

import MCertikos.FS.Inode
import MCertikos.Math.Task
import Mathlib.Logic.Function.Basic

namespace MCertikos.Sysfile

open Math FS Function

def ninode : ℕ := 50

def nfile : ℕ := 100

/-- A buffer; it is for no sector until it is first used. -/
structure Buf where
  sector : Option Sector
  busy : Bool
  valid : Bool
  dirty : Bool
  data : Block

inductive FileType
  | none | pipe | inode
  deriving DecidableEq, Repr

/-- `struct file`, an entry of the file table. -/
structure File where
  type : FileType
  ref : ℕ
  readable : Bool
  writable : Bool
  ip : ℕ
  off : BitVec 32

/-- What all processes share. -/
structure Shared where
  bufs : ℕ → Buf
  /-- The buffers from `bcache.head.next` on, most recently used first. -/
  lru : List ℕ
  idequeue : List ℕ
  disk : Disk
  log : Log
  inodes : ℕ → Inode
  ftable : ℕ → File
  /-- The static flag of `sys_open`. -/
  first : Bool
  bufLock : Bool
  /-- Noted when `log_init` has returned. -/
  recovered : Bool

/-- A process's fields of its TCB, and notes of what it holds. -/
structure Proc where
  cwd : Option ℕ
  openfiles : ℕ → Option ℕ
  /-- The process is between `begin_trans` and `commit_trans`. -/
  trans : Bool
  /-- The inodes whose `I_BUSY` the process has set. -/
  inodes : List ℕ
  /-- The buffers whose `B_BUSY` the process has set, with their sectors. -/
  bufs : List (ℕ × Sector)
  /-- How many references to each inode are the process's own. -/
  refs : ℕ → ℕ
  /-- The entries of the file table that are the process's own, with their inodes. -/
  files : ℕ → Option (Option ℕ)
  /-- The process is in `log_init`. -/
  recovering : Bool
  /-- The process holds `buf_lock`. -/
  bufLock : Bool

structure World where
  shared : Shared
  proc : ℕ → Proc

/-- What a process sleeps on: the address of a buffer, of the log or of an inode. -/
inductive Chan
  | buf (b : ℕ)
  | log
  | inode (i : ℕ)
  deriving DecidableEq, Repr

/-- Why the machine stops. -/
inductive Stop
  /-- `bufcache_get`: "no buffers". -/
  | noBuffers
  /-- `bufcache_write`: "bwrite". -/
  | bwrite
  /-- `bufcache_release`: "brelse". -/
  | brelse
  /-- `ide_rw`: "buf not busy". -/
  | bufNotBusy
  /-- `ide_rw`: "nothing to do". -/
  | nothingToDo
  /-- `log_write`: "too big a transaction". -/
  | tooBigTransaction
  /-- `log_write`: "write outside of trans". -/
  | writeOutsideTrans
  /-- `block_alloc` ends without a `return`, and its caller uses the value. -/
  | noReturnValue
  /-- `block_free`: "freeing free block". -/
  | freeingFreeBlock
  /-- `inode_alloc`: "no inodes". -/
  | noFreeInode
  /-- `inode_get`: "no inodes". -/
  | noInodeSlot
  /-- `inode_lock`: "inode_lock". -/
  | inodeLock
  /-- `inode_lock`: "no type". -/
  | noType
  /-- `inode_unlock`: "inode_unlock". -/
  | inodeUnlock
  /-- `inode_put`: "inode_put busy". -/
  | inodePutBusy
  /-- `bmap`: "out of range". -/
  | bmapOutOfRange
  /-- `dir_lookup`: "not DIR". -/
  | notDir
  /-- `dir_lookup`, `dir_link`, `isdirempty` and `sys_ls`: an entry that cannot be read. -/
  | dirRead
  /-- `dir_link` and `sys_unlink`: an entry that cannot be written. -/
  | dirWrite
  /-- `create`: "create dots". -/
  | createDots
  /-- `create`: "dir_link". -/
  | createLink
  /-- `sys_unlink`: "nlink < 1". -/
  | unlinkNlink
  /-- `file_close`: "file_close". -/
  | fileClose
  /-- `file_read`: "file_read". -/
  | fileRead
  /-- `file_write`: "file_write". -/
  | fileWrite
  /-- `file_write`: "short file_write". -/
  | shortWrite
  /-- An inode is accessed through a null pointer. -/
  | nullPointer
  /-- `spinlock_acquire(&buf_lock)` spins, and nothing else runs on the CPU. -/
  | spin
  /-- A loop over directories does not end within its bound. -/
  | noEnd
  deriving DecidableEq, Repr

/-- The pieces of the code between which others can run. -/
inductive Act
  | bufGet (sector : Sector)
  | bufRelease (b : ℕ)
  /-- `b->flags & B_VALID`. -/
  | bufValid (b : ℕ)
  | bufData (b : ℕ)
  /-- The first bytes of `b->data` as a `struct superblock`. -/
  | bufSuperblock (b : ℕ)
  /-- The `j`-th word of `b->data`, an entry of an indirect block. -/
  | bufEntry (b j : ℕ)
  /-- The inner loop of `block_alloc`: the first clear bit of `b->data`. -/
  | bufFirstFree (b base size : ℕ)
  /-- Change `b->data`. -/
  | bufModify (b : ℕ) (f : Block → Block)
  /-- `b->flags |= B_DIRTY`. -/
  | bufSetDirty (b : ℕ)
  /-- `bufcache_write`: the check that the buffer is busy, and `b->flags |= B_DIRTY`. -/
  | bufWrite (b : ℕ)
  /-- `ide_rw` up to its loop: append the buffer to the queue of the disk. -/
  | ideSubmit (b : ℕ)
  /-- The loop of `ide_rw`. -/
  | ideWait (b : ℕ)
  /-- The critical section of `begin_trans`. -/
  | logAcquire
  /-- The critical section of `commit_trans`. -/
  | logRelease
  /-- The fields of `log`. -/
  | logGet
  /-- `log.start` and `log.size`. -/
  | logSetRegion (r : Region)
  /-- Change `log.lh`. -/
  | logModify (f : LogHeader → LogHeader)
  | inodeGet (inum : BitVec 32)
  | inodeDup (i : ℕ)
  /-- `inode_lock` up to the end of its critical section. -/
  | inodeAcquire (i : ℕ)
  /-- `inode_unlock`. -/
  | inodeRelease (i : ℕ)
  /-- `inode_put` up to the end of its first critical section. -/
  | inodePutTest (i : ℕ)
  /-- The second critical section of `inode_put`. -/
  | inodePutFinish (i : ℕ)
  /-- The fields of an inode. -/
  | inodeLoad (i : ℕ)
  /-- `ip->addrs[k]`. -/
  | inodeAddr (i k : ℕ)
  /-- Change the fields of an inode that are copies of the disk's. -/
  | inodeModify (i : ℕ) (f : Dinode → Dinode)
  /-- `ip->flags |= I_VALID`. -/
  | inodeSetValid (i : ℕ)
  | fileAlloc
  /-- The critical section of `file_close`: a copy of the entry if it was the last reference. -/
  | fileClose (f : ℕ)
  /-- The fields of an entry of the file table. -/
  | fileGet (f : ℕ)
  /-- The assignments to a new entry in `sys_open`. -/
  | fileSetup (f ip : ℕ) (readable writable : Bool)
  /-- `f->off += r`. -/
  | fileAdvance (f : ℕ) (r : BitVec 32)
  | getCwd
  | setCwd (i : ℕ)
  | getOpenfiles
  /-- `tcb_set_openfiles`. -/
  | setOpenfile (fd : ℕ) (f : Option ℕ)
  /-- The test of the static flag of `sys_open`, which it clears. -/
  | testFirst
  /-- Nothing: `log_init` has returned. -/
  | noteRecovered
  /-- `spinlock_acquire(&buf_lock)`. -/
  | lockBuf
  /-- `spinlock_release(&buf_lock)`. -/
  | unlockBuf
  /-- `KERN_PANIC`, and what else ends the machine. -/
  | stop (reason : Stop)

/-- What an action returns. -/
@[reducible] def Act.Res : Act → Type
  | .bufGet _ => ℕ
  | .bufValid _ => Bool
  | .bufData _ => Block
  | .bufSuperblock _ => Superblock
  | .bufEntry _ _ => Sector
  | .bufFirstFree _ _ _ => Option ℕ
  | .logGet => Log
  | .inodeGet _ => ℕ
  | .inodePutTest _ => Bool
  | .inodeLoad _ => Inode
  | .inodeAddr _ _ => Sector
  | .fileAlloc => Option ℕ
  | .fileClose _ => Option File
  | .fileGet _ => File
  | .getCwd => Option ℕ
  | .getOpenfiles => ℕ → Option ℕ
  | .testFirst => Bool
  | .stop _ => Empty
  | _ => Unit

@[reducible] def iface : Interface := ⟨Act, Act.Res⟩

/-- Code that can be left between any two of its actions. -/
abbrev Code (β : Type) := Task iface β

namespace Proc

def init : Proc where
  cwd := none
  openfiles _ := none
  trans := false
  inodes := []
  bufs := []
  refs _ := 0
  files _ := none
  recovering := false
  bufLock := false

/-- The process gets a reference to an inode. -/
def gain (l : Proc) (i : ℕ) : Proc := { l with refs := update l.refs i (l.refs i + 1) }

/-- The process gives a reference to an inode away. -/
def lose (l : Proc) (i : ℕ) : Proc := { l with refs := update l.refs i (l.refs i - 1) }

/-- What the process holds after an action. -/
def after (l : Proc) : (a : Act) → a.Res → Proc
  | .bufGet sector, b => { l with bufs := (b, sector) :: l.bufs }
  | .bufRelease b, _ => { l with bufs := l.bufs.eraseP fun x => x.1 = b }
  | .logAcquire, _ => { l with trans := true }
  | .logRelease, _ => { l with trans := false }
  | .inodeGet _, i => l.gain i
  | .inodeDup i, _ => l.gain i
  | .inodeAcquire i, _ => { l with inodes := i :: l.inodes }
  | .inodeRelease i, _ => { l with inodes := l.inodes.erase i }
  | .inodePutTest i, true => { l with inodes := i :: l.inodes }
  | .inodePutTest i, false => l.lose i
  | .inodePutFinish i, _ => { l.lose i with inodes := l.inodes.erase i }
  | .fileAlloc, some f => { l with files := update l.files f (some none) }
  | .fileClose f, some _ => { l with files := update l.files f none }
  | .fileSetup f ip _ _, _ => { l with files := update l.files f (some (some ip)) }
  | .setCwd i, _ => { l with cwd := some i }
  | .setOpenfile fd f, _ => { l with openfiles := update l.openfiles fd f }
  | .testFirst, true => { l with recovering := true }
  | .noteRecovered, _ => { l with recovering := false }
  | .lockBuf, _ => { l with bufLock := true }
  | .unlockBuf, _ => { l with bufLock := false }
  | _, _ => l

end Proc

namespace Shared

variable (s : Shared)

def setBuf (b : ℕ) (f : Buf → Buf) : Shared :=
  { s with bufs := update s.bufs b (f (s.bufs b)) }

def setInode (i : ℕ) (f : Inode → Inode) : Shared :=
  { s with inodes := update s.inodes i (f (s.inodes i)) }

def setFile (k : ℕ) (f : File → File) : Shared :=
  { s with ftable := update s.ftable k (f (s.ftable k)) }

def bufcacheGet (sector : Sector) : Outcome Shared Chan Stop ℕ :=
  match s.lru.find? fun b => (s.bufs b).sector = some sector with
  | some b =>
    if (s.bufs b).busy then .wait (.buf b)
    else .done (s.setBuf b fun buf => { buf with busy := true }) [] b
  | none =>
    match s.lru.reverse.find? fun b => !(s.bufs b).busy && !(s.bufs b).dirty with
    | some b =>
      .done (s.setBuf b fun buf =>
        { buf with sector := some sector, busy := true, valid := false, dirty := false }) [] b
    | none => .halt .noBuffers

def bufcacheRelease (b : ℕ) : Outcome Shared Chan Stop Unit :=
  if (s.bufs b).busy then
    .done { s.setBuf b fun buf => { buf with busy := false } with lru := b :: s.lru.erase b }
      [.buf b] ()
  else .halt .brelse

/-- `ide_rw` up to its loop. -/
def ideSubmit (b : ℕ) : Outcome Shared Chan Stop Unit :=
  if (s.bufs b).busy = false then .halt .bufNotBusy
  else if (s.bufs b).valid ∧ (s.bufs b).dirty = false then .halt .nothingToDo
  else .done { s with idequeue := s.idequeue ++ [b] } [] ()

/-- The disk serves the first request, and `ide_intr` follows. -/
def ideIntr : Shared × List Chan :=
  match s.idequeue with
  | [] => (s, [])
  | b :: rest =>
    let buf := s.bufs b
    let sector := buf.sector.getD 0
    let s := if buf.dirty then { s with disk := update s.disk sector buf.data } else s
    let data := if buf.dirty then buf.data else s.disk sector
    ({ s.setBuf b fun buf => { buf with data := data, valid := true, dirty := false } with
        idequeue := rest }, [.buf b])

def inodeGet (inum : BitVec 32) : Outcome Shared Chan Stop ℕ :=
  match (List.range ninode).find? fun i => 0 < (s.inodes i).ref && (s.inodes i).inum = inum with
  | some i => .done (s.setInode i fun ip => { ip with ref := ip.ref + 1 }) [] i
  | none =>
    match (List.range ninode).find? fun i => (s.inodes i).ref = 0 with
    | some i =>
      .done (s.setInode i fun ip =>
        { ip with inum := inum, ref := 1, busy := false, valid := false }) [] i
    | none => .halt .noInodeSlot

def inodeAcquire (i : ℕ) : Outcome Shared Chan Stop Unit :=
  if (s.inodes i).ref < 1 then .halt .inodeLock
  else if (s.inodes i).busy then .wait (.inode i)
  else .done (s.setInode i fun ip => { ip with busy := true }) [] ()

def inodeUnlock (i : ℕ) : Outcome Shared Chan Stop Unit :=
  if (s.inodes i).busy = false ∨ (s.inodes i).ref < 1 then .halt .inodeUnlock
  else .done (s.setInode i fun ip => { ip with busy := false }) [.inode i] ()

/-- Whether `inode_put` has to free the inode, which it then locks. -/
def inodePutTest (i : ℕ) : Outcome Shared Chan Stop Bool :=
  let ip := s.inodes i
  if ip.ref = 1 ∧ ip.valid ∧ ip.nlink = 0 then
    if ip.busy then .halt .inodePutBusy
    else .done (s.setInode i fun ip => { ip with busy := true }) [] true
  else .done (s.setInode i fun ip => { ip with ref := ip.ref - 1 }) [] false

def inodePutFinish (i : ℕ) : Outcome Shared Chan Stop Unit :=
  .done (s.setInode i fun ip => { ip with busy := false, valid := false, ref := ip.ref - 1 })
    [.inode i] ()

def fileAlloc : Outcome Shared Chan Stop (Option ℕ) :=
  match (List.range nfile).find? fun f => (s.ftable f).ref = 0 with
  | some f => .done (s.setFile f fun file => { file with ref := 1 }) [] (some f)
  | none => .done s [] none

def fileClose (f : ℕ) : Outcome Shared Chan Stop (Option File) :=
  let file := s.ftable f
  if file.ref < 1 then .halt .fileClose
  else if 0 < file.ref - 1 then
    .done (s.setFile f fun file => { file with ref := file.ref - 1 }) [] none
  else .done (s.setFile f fun file => { file with ref := 0, type := .none }) [] (some file)

/-- What an action does to the shared data. -/
def effect (l : Proc) : (a : Act) → Outcome Shared Chan Stop a.Res
  | .bufGet sector => s.bufcacheGet sector
  | .bufRelease b => s.bufcacheRelease b
  | .bufValid b => .done s [] (s.bufs b).valid
  | .bufData b => .done s [] (s.bufs b).data
  | .bufSuperblock b => .done s [] (Superblock.decode (s.bufs b).data)
  | .bufEntry b j => .done s [] ((s.bufs b).data.word j)
  | .bufFirstFree b base size => .done s [] (Fs.firstFree (s.bufs b).data base size)
  | .bufModify b f => .done (s.setBuf b fun buf => { buf with data := f buf.data }) [] ()
  | .bufSetDirty b => .done (s.setBuf b fun buf => { buf with dirty := true }) [] ()
  | .bufWrite b =>
    if (s.bufs b).busy then .done (s.setBuf b fun buf => { buf with dirty := true }) [] ()
    else .halt .bwrite
  | .ideSubmit b => s.ideSubmit b
  | .ideWait b =>
    if (s.bufs b).valid ∧ (s.bufs b).dirty = false then .done s [] () else .wait (.buf b)
  | .logAcquire =>
    if s.log.busy then .wait .log
    else .done { s with log := { s.log with busy := true } } [] ()
  | .logRelease => .done { s with log := { s.log with busy := false } } [.log] ()
  | .logGet => .done s [] s.log
  | .logSetRegion r => .done { s with log := { s.log with toRegion := r } } [] ()
  | .logModify f => .done { s with log := { s.log with lh := f s.log.lh } } [] ()
  | .inodeGet inum => s.inodeGet inum
  | .inodeDup i => .done (s.setInode i fun ip => { ip with ref := ip.ref + 1 }) [] ()
  | .inodeAcquire i => s.inodeAcquire i
  | .inodeRelease i => s.inodeUnlock i
  | .inodePutTest i => s.inodePutTest i
  | .inodePutFinish i => s.inodePutFinish i
  | .inodeLoad i => .done s [] (s.inodes i)
  | .inodeAddr i k => .done s [] ((s.inodes i).addr k)
  | .inodeModify i f =>
    .done (s.setInode i fun ip => { ip with toDinode := f ip.toDinode }) [] ()
  | .inodeSetValid i => .done (s.setInode i fun ip => { ip with valid := true }) [] ()
  | .fileAlloc => s.fileAlloc
  | .fileClose f => s.fileClose f
  | .fileGet f => .done s [] (s.ftable f)
  | .fileSetup f ip readable writable =>
    .done (s.setFile f fun file => { file with
      type := .inode, ip := ip, off := 0, readable := readable, writable := writable }) [] ()
  | .fileAdvance f r => .done (s.setFile f fun file => { file with off := file.off + r }) [] ()
  | .getCwd => .done s [] l.cwd
  | .setCwd _ => .done s [] ()
  | .getOpenfiles => .done s [] l.openfiles
  | .setOpenfile _ _ => .done s [] ()
  | .testFirst => .done { s with first := false } [] s.first
  | .noteRecovered => .done { s with recovered := true } [] ()
  | .lockBuf => if s.bufLock then .halt .spin else .done { s with bufLock := true } [] ()
  | .unlockBuf => .done { s with bufLock := false } [] ()
  | .stop reason => .halt reason

def boot (disk : Disk) : Shared where
  bufs _ := ⟨none, false, false, false, fun _ => 0⟩
  lru := (List.range nbuf).reverse
  idequeue := []
  disk := disk
  log := Log.boot ⟨0, 0⟩
  inodes _ := ⟨⟨0, 0, 0, 0, 0, fun _ => 0⟩, 0, 0, false, false⟩
  ftable _ := ⟨.none, 0, false, false, 0, 0⟩
  first := true
  bufLock := false
  recovered := false

end Shared

/-- **What an action of a process does.** -/
def step : Semantics iface World Chan Stop := fun pid a w =>
  match w.shared.effect (w.proc pid) a with
  | .done shared wakes r =>
    .done ⟨shared, update w.proc pid ((w.proc pid).after a r)⟩ wakes r
  | .wait chan => .wait chan
  | .halt reason => .halt reason

def World.boot (disk : Disk) : World := ⟨.boot disk, fun _ => .init⟩

end MCertikos.Sysfile
