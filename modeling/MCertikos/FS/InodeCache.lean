/-
# The inode cache

The functions of `inode.c` on the table of in-memory inodes, each of them called by one thread at
a time.
-/

import MCertikos.FS.Inode
import MCertikos.Sysfile.Inode
import MCertikos.Math.Run

namespace MCertikos.FS

open Math Function

def rootdev : BitVec 32 := 1

structure CachedInode extends Inode where
  dev : BitVec 32

/-- The file system and the slots of `inode_cache`. -/
structure InodeCache where
  fs : Fs
  inode : ℕ → CachedInode

/-- Why a function does not return. -/
inductive Stuck
  /-- The block layer stops. -/
  | halt (reason : Halt)
  /-- A panic. -/
  | panic (reason : Sysfile.Stop)
  /-- `inode_lock` sleeps on a locked inode. -/
  | sleep
  deriving DecidableEq

abbrev CacheM := StateT InodeCache (Except Stuck)

namespace InodeCache

def zeroInode : CachedInode := ⟨⟨⟨0, 0, 0, 0, 0, fun _ => 0⟩, 0, 0, false, false⟩, 0⟩

def boot (fs : Fs) : InodeCache := ⟨fs, fun _ => zeroInode⟩

def setInode (c : InodeCache) (i : ℕ) (ip : CachedInode) : InodeCache :=
  { c with inode := update c.inode i ip }

section Slots

variable {c : InodeCache} {i j : ℕ} {ip ip' : CachedInode}

@[simp] theorem setInode_fs : (c.setInode i ip).fs = c.fs := rfl

@[simp] theorem setInode_self : (c.setInode i ip).inode i = ip := update_self ..

theorem setInode_of_ne (hj : j ≠ i) : (c.setInode i ip).inode j = c.inode j :=
  update_of_ne hj _ _

@[simp] theorem setInode_setInode : (c.setInode i ip).setInode i ip' = c.setInode i ip' := by
  simp only [setInode, update_idem]

@[simp] theorem setInode_setFs {fs : Fs} :
    InodeCache.setInode ⟨fs, (c.setInode i ip).inode⟩ i ip' = setInode ⟨fs, c.inode⟩ i ip' := by
  simp only [setInode, update_idem]

end Slots

end InodeCache

def runFs {α : Type} (f : Fs → Except Halt (α × Fs)) : CacheM α := fun c =>
  match f c.fs with
  | .ok (value, fs) => .ok (value, { c with fs := fs })
  | .error reason => .error (.halt reason)

def runInode {α : Type} (i : ℕ) (f : Fs → Inode → Except Halt (α × Inode × Fs)) : CacheM α :=
  fun c =>
    match f c.fs (c.inode i).toInode with
    | .ok (value, ip, fs) =>
      .ok (value, { c with fs := fs }.setInode i { c.inode i with toInode := ip })
    | .error reason => .error (.halt reason)

def kernPanic {α : Type} (reason : Sysfile.Stop) : CacheM α := fun _ => .error (.panic reason)

def beginTrans : CacheM Unit := fun c =>
  match c.fs.beginTrans with
  | some fs => .ok ((), { c with fs := fs })
  | none => .error .sleep

def commitTrans : CacheM Unit := fun c =>
  match c.fs.commitTrans with
  | some fs => .ok ((), { c with fs := fs })
  | none => .error .sleep

def inodeGet (dev inum : BitVec 32) : CacheM ℕ := fun c =>
  match (List.range Sysfile.ninode).find? fun i =>
      0 < (c.inode i).ref && (c.inode i).dev = dev && (c.inode i).inum = inum with
  | some i => .ok (i, c.setInode i { c.inode i with ref := (c.inode i).ref + 1 })
  | none =>
    match (List.range Sysfile.ninode).find? fun i => (c.inode i).ref = 0 with
    | some i =>
      .ok (i, c.setInode i { c.inode i with
        dev := dev, inum := inum, ref := 1, busy := false, valid := false })
    | none => .error (.panic .noInodeSlot)

/-- The loop of `inode_alloc` over the remaining numbers: that of the inode marked allocated, or
none if all are in use. -/
def Fs.allocInode (s : Fs) (type : BitVec 16) : List ℕ → Except Halt (Option ℕ × Fs)
  | [] => return (none, s)
  | inum :: rest => do
    let bp ← s.bufcacheRead [] (iblock inum)
    if (Dinode.decode bp (inum % ipb)).type = 0 then do
      let s ← s.logWrite [iblock inum] (iblock inum)
        ((Sysfile.freshDinode type).encode bp (inum % ipb))
      return (some inum, s)
    else s.allocInode type rest

def Fs.inodeAlloc (s : Fs) (type : BitVec 16) : Except Halt (Option ℕ × Fs) := do
  let sb ← s.readSuperblock []
  s.allocInode type (List.range' 1 (sb.ninodes.toNat - 1))

def inodeAlloc (dev : BitVec 32) (type : BitVec 16) : CacheM ℕ := do
  match ← runFs fun s => s.inodeAlloc type with
  | some inum => inodeGet dev (BitVec.ofNat 32 inum)
  | none => kernPanic .noFreeInode

def inodeUpdate (i : ℕ) : CacheM Unit :=
  runInode i fun s ip => (s.inodeUpdate ip).map fun s => ((), ip, s)

def inodeDup (i : ℕ) : CacheM Unit := fun c =>
  .ok ((), c.setInode i { c.inode i with ref := (c.inode i).ref + 1 })

def Fs.inodeLoad (s : Fs) (ip : Inode) : Except Halt (Unit × Inode × Fs) := do
  let bp ← s.bufcacheRead [] (iblock ip.inum.toNat)
  return ((), { ip with toDinode := Dinode.decode bp (ip.inum.toNat % ipb), valid := true }, s)

def loadInode (i : ℕ) : CacheM Unit := do
  runInode i fun s ip => s.inodeLoad ip
  let c ← get
  if (c.inode i).type = 0 then kernPanic .noType else return ()

def inodeLock (i : ℕ) : CacheM Unit := do
  let c ← get
  if (c.inode i).ref < 1 then kernPanic .inodeLock
  else if (c.inode i).busy then throw .sleep
  else
    set (c.setInode i { c.inode i with busy := true })
    if (c.inode i).valid then return () else loadInode i

def inodeUnlock (i : ℕ) : CacheM Unit := do
  let c ← get
  if (c.inode i).busy = false ∨ (c.inode i).ref < 1 then kernPanic .inodeUnlock
  else set (c.setInode i { c.inode i with busy := false })

def inodePut (i : ℕ) : CacheM Unit :=
  runInode i fun s ip => (s.inodePut ip).map fun (ip, s) => ((), ip, s)

def inodeWrite (devsw : ℕ → Devsw) (i : ℕ) (src : ℕ → BitVec 8) (off n : BitVec 32) : CacheM ℤ :=
  runInode i fun s ip => s.inodeWrite devsw ip src off n

def inodeModify (i : ℕ) (f : Dinode → Dinode) : CacheM Unit := fun c =>
  .ok ((), c.setInode i { c.inode i with toDinode := f (c.inode i).toDinode })

def initFields (i : ℕ) (major minor : BitVec 16) : CacheM Unit := do
  inodeModify i fun d => { d with major := major, minor := minor, nlink := 1 }
  inodeUpdate i

def incNlink (i : ℕ) : CacheM Unit := do
  inodeModify i fun d => { d with nlink := d.nlink + 1 }
  inodeUpdate i

def decNlink (i : ℕ) : CacheM Unit := do
  inodeModify i fun d => { d with nlink := d.nlink - 1 }
  inodeUpdate i

/-! ## Runs -/

inductive InodeOp
  | begin
  | commit
  | alloc (dev : BitVec 32) (type : BitVec 16)
  | get (dev inum : BitVec 32)
  | dup (i : ℕ)
  | lock (i : ℕ)
  | unlock (i : ℕ)
  | put (i : ℕ)
  | write (i : ℕ) (src : ℕ → BitVec 8) (off n : BitVec 32)
  | update (i : ℕ)
  | initFields (i : ℕ) (major minor : BitVec 16)
  | incNlink (i : ℕ)
  | decNlink (i : ℕ)

inductive InodeOut
  | done
  | slot (i : ℕ)
  | count (n : ℤ)
  deriving DecidableEq

def InodeOp.code (devsw : ℕ → Devsw) : InodeOp → CacheM InodeOut
  | .begin => do beginTrans; return .done
  | .commit => do commitTrans; return .done
  | .alloc dev type => do return .slot (← FS.inodeAlloc dev type)
  | .get dev inum => do return .slot (← inodeGet dev inum)
  | .dup i => do inodeDup i; return .done
  | .lock i => do inodeLock i; return .done
  | .unlock i => do inodeUnlock i; return .done
  | .put i => do FS.inodePut i; return .done
  | .write i src off n => do return .count (← FS.inodeWrite devsw i src off n)
  | .update i => do FS.inodeUpdate i; return .done
  | .initFields i major minor => do FS.initFields i major minor; return .done
  | .incNlink i => do FS.incNlink i; return .done
  | .decNlink i => do FS.decNlink i; return .done

def inodeMachine (devsw : ℕ → Devsw) : Machine InodeCache InodeOp InodeOut where
  exec c op := (op.code devsw c).toOption.map fun (out, c) => (c, out)

end MCertikos.FS
