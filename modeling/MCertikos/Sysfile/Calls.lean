/-
# The file-system calls, as resumable code

The functions of `file.c` and `sysfile.c`, and `sys_ls` and `sys_pwd`.
-/

import MCertikos.Sysfile.Inode
import MCertikos.UserMem.Syscalls

namespace MCertikos.Sysfile

open Math FS UserMem

/-! ## `file.c` -/

def fileClose (f : ℕ) : Code Unit := do
  match ← act (.fileClose f) with
  | none => return ()
  | some ff =>
    if ff.type = .inode then
      beginTrans
      inodePut ff.ip
      commitTrans
    else return ()

def fileRead (f : ℕ) (n : BitVec 32) : Code (ℤ × List Byte) := do
  let file ← act (.fileGet f)
  if file.readable = false then return (-1, [])
  else if file.type = .inode then
    inodeLock file.ip
    let file ← act (.fileGet f)
    let (r, data) ← inodeRead file.ip file.off n
    if 0 < r then act (.fileAdvance f (BitVec.ofInt 32 r))
    inodeUnlock file.ip
    return (r, data)
  else stop .fileRead

def writeChunk : ℕ := (logsize - 1 - 1 - 2) / 2 * 512

def writeOne (f : ℕ) (src : ℕ → Byte) (i n1 : ℕ) : Code ℤ := do
  beginTrans
  let file ← act (.fileGet f)
  inodeLock file.ip
  let file ← act (.fileGet f)
  let r ← inodeWrite file.ip (fun j => src (i + j)) file.off (BitVec.ofNat 32 n1)
  if 0 < r then act (.fileAdvance f (BitVec.ofInt 32 r))
  inodeUnlock file.ip
  commitTrans
  return r

def fileWriteLoop (f : ℕ) (src : ℕ → Byte) (n : ℕ) : ℕ → ℕ → Code ℕ
  | 0, i => return i
  | fuel + 1, i =>
    if i < n then do
      let n1 := min (n - i) writeChunk
      let r ← writeOne f src i n1
      if r < 0 then return i
      else if r ≠ n1 then stop .shortWrite
      else fileWriteLoop f src n fuel (i + n1)
    else return i

def fileWrite (f : ℕ) (src : ℕ → Byte) (n : ℕ) : Code ℤ := do
  let file ← act (.fileGet f)
  if file.writable = false then return -1
  else if file.type = .inode then
    let i ← fileWriteLoop f src n n 0
    return if i = n then n else -1
  else stop .fileWrite

/-! ## `sysfile.c` -/

inductive Errno
  | succ | badf | invalAddr | nexist | diskOp | create
  deriving DecidableEq, Repr

/-- What a call reports: the error number, the returned value if it sets one, and the bytes
that go to the user. -/
structure Reply where
  errno : Errno
  retval : Option ℤ
  data : List Byte
  deriving DecidableEq, Repr

def reply (errno : Errno) (retval : Option ℤ) : Reply := ⟨errno, retval, []⟩

def userPath (bytes : List Byte) : List Byte := cstring (bytes.take 127)

def fdalloc (f : ℕ) : Code (Option ℕ) := do
  let fds ← act .getOpenfiles
  match (List.range nofile).find? fun fd => (fds fd).isNone with
  | some fd =>
    act (.setOpenfile fd (some f))
    return some fd
  | none => return none

def openFile (fd : ℕ) : Code (Option ℕ) := do
  let fds ← act .getOpenfiles
  return if fd < nofile then fds fd else none

def readLocked (fd : ℕ) (userBuf n : BitVec 32) : Code Reply :=
  if nofile ≤ fd then return reply .badf (some (-1))
  else if illegalUserBuf userBuf n then return reply .invalAddr (some (-1))
  else do
    match ← openFile fd with
    | none => return reply .badf (some (-1))
    | some f =>
      let (r, data) ← fileRead f n
      return ⟨.succ, some r, data⟩

def writeLocked (fd : ℕ) (userBuf n : BitVec 32) (src : ℕ → Byte) : Code Reply :=
  if nofile ≤ fd then return reply .badf (some (-1))
  else if illegalUserBuf userBuf n then return reply .invalAddr (some (-1))
  else do
    match ← openFile fd with
    | none => return reply .badf (some (-1))
    | some f =>
      let r ← fileWrite f src n.toNat
      return reply .succ (some r)

def withBufLock (t : Code Reply) : Code Reply := do
  act .lockBuf
  let r ← t
  act .unlockBuf
  return r

def sysRead (fd : ℕ) (userBuf n : BitVec 32) : Code Reply :=
  withBufLock (readLocked fd userBuf n)

def sysWrite (fd : ℕ) (userBuf n : BitVec 32) (src : ℕ → Byte) : Code Reply :=
  withBufLock (writeLocked fd userBuf n src)

def fileStat (f : ℕ) : Code (Option Inode) := do
  let file ← act (.fileGet f)
  if file.type = .inode then
    inodeLock file.ip
    let ip ← act (.inodeLoad file.ip)
    inodeUnlock file.ip
    return some ip
  else return none

def fileStatSize : BitVec 32 := 20

def sysFstat (fd : ℕ) (userStp : BitVec 32) : Code Reply := do
  if nofile ≤ fd ∨ userStp < vmUserlo ∨ vmUserhi < userStp + fileStatSize then
    return reply .badf (some (-1))
  else
    match ← openFile fd with
    | none => return reply .badf (some (-1))
    | some f =>
      match ← fileStat f with
      | none => return reply .badf (some (-1))
      | some _ => return reply .succ (some 0)

def sysClose (fd : ℕ) : Code Reply := do
  match ← openFile fd with
  | none => return reply .badf (some (-1))
  | some f =>
    fileClose f
    act (.setOpenfile fd none)
    return reply .succ (some 0)

def linkBad (ip : ℕ) : Code Reply := do
  inodeLock ip
  act (.inodeModify ip fun d => { d with nlink := d.nlink - 1 })
  inodeUpdate ip
  inodeUnlockput ip
  commitTrans
  return reply .diskOp none

def linkEntry (ip : ℕ) (new : List Byte) : Code Reply := do
  match ← nameiparent new with
  | none => linkBad ip
  | some (dp, name) =>
    inodeLock dp
    let d ← act (.inodeLoad ip)
    if ← dirLink dp name d.inum then
      inodeUnlockput dp
      inodePut ip
      commitTrans
      return reply .succ none
    else
      inodeUnlockput dp
      linkBad ip

def sysLink (old new : List Byte) : Code Reply := do
  match ← namei (userPath old) with
  | none => return reply .nexist none
  | some ip =>
    beginTrans
    inodeLock ip
    let d ← act (.inodeLoad ip)
    if d.type = tDir then
      inodeUnlockput ip
      commitTrans
      return reply .diskOp none
    else
      act (.inodeModify ip fun d => { d with nlink := d.nlink + 1 })
      inodeUpdate ip
      inodeUnlock ip
      linkEntry ip (userPath new)

def isdirempty (dp : ℕ) : Code Bool := do
  let (de, _) ← scanDir dp (fun de => de.inum ≠ 0) dirTurns (2 * direntSize)
  return de.isNone

def dot : List Byte := [0x2e]

def dotdot : List Byte := [0x2e, 0x2e]

def unlinkBad (dp : ℕ) : Code Reply := do
  inodeUnlockput dp
  commitTrans
  return reply .diskOp none

def unlinkEntry (dp ip off : ℕ) (type : BitVec 16) : Code Reply := do
  writeDirent dp ⟨0, []⟩ off
  if type = tDir then
    act (.inodeModify dp fun d => { d with nlink := d.nlink - 1 })
    inodeUpdate dp
  inodeUnlockput dp
  act (.inodeModify ip fun d => { d with nlink := d.nlink - 1 })
  inodeUpdate ip
  inodeUnlockput ip
  commitTrans
  return reply .succ none

def sysUnlink (path : List Byte) : Code Reply := do
  match ← nameiparent (userPath path) with
  | none => return reply .diskOp none
  | some (dp, name) =>
    beginTrans
    inodeLock dp
    if dirNamecmp name dot = 0 ∨ dirNamecmp name dotdot = 0 then unlinkBad dp
    else
      match ← dirLookup dp name with
      | none => unlinkBad dp
      | some (ip, off) =>
        inodeLock ip
        let d ← act (.inodeLoad ip)
        if d.nlink.toInt < 1 then stop .unlinkNlink
        else if d.type = tDir then
          if ← isdirempty ip then unlinkEntry dp ip off d.type
          else
            inodeUnlockput ip
            unlinkBad dp
        else unlinkEntry dp ip off d.type

def createNew (dp : ℕ) (name : List Byte) (type : BitVec 16) : Code ℕ := do
  let ip ← inodeAlloc type
  inodeLock ip
  act (.inodeModify ip fun d => { d with major := 0, minor := 0, nlink := 1 })
  inodeUpdate ip
  let d ← act (.inodeLoad ip)
  if type = tDir then
    act (.inodeModify dp fun d => { d with nlink := d.nlink + 1 })
    inodeUpdate dp
    let parent ← act (.inodeLoad dp)
    if ← dirLink ip dot d.inum then
      if ← dirLink ip dotdot parent.inum then pure () else stop .createDots
    else stop .createDots
  if ← dirLink dp name d.inum then
    inodeUnlockput dp
    return ip
  else stop .createLink

def create (path : List Byte) (type : BitVec 16) : Code (Option ℕ) := do
  match ← nameiparent path with
  | none => return none
  | some (dp, name) =>
    inodeLock dp
    match ← dirLookup dp name with
    | some (ip, _) =>
      inodeUnlockput dp
      inodeLock ip
      let d ← act (.inodeLoad ip)
      if type = tFile ∧ d.type = tFile then return some ip
      else
        inodeUnlockput ip
        return none
    | none =>
      let ip ← createNew dp name type
      return some ip

def oWronly : BitVec 32 := 1

def oRdwr : BitVec 32 := 2

def oCreate : BitVec 32 := 0x200

def hasMode (omode flag : BitVec 32) : Bool := omode &&& flag ≠ 0

def openInode (ip : ℕ) (omode : BitVec 32) : Code Reply := do
  match ← act .fileAlloc with
  | none =>
    inodeUnlockput ip
    return reply .diskOp (some (-1))
  | some f =>
    match ← fdalloc f with
    | none =>
      fileClose f
      inodeUnlockput ip
      return reply .diskOp (some (-1))
    | some fd =>
      inodeUnlock ip
      act (.fileSetup f ip (!hasMode omode oWronly)
        (hasMode omode oWronly || hasMode omode oRdwr))
      return reply .succ (some fd)

def openFirst : Code Unit := do
  if ← act .testFirst then
    logInit
    act .noteRecovered
  else return ()

def sysOpen (path : List Byte) (omode : BitVec 32) : Code Reply := do
  openFirst
  if hasMode omode oCreate then
    beginTrans
    let ip ← create (userPath path) tFile
    commitTrans
    match ip with
    | none => return reply .create (some (-1))
    | some ip => openInode ip omode
  else
    match ← namei (userPath path) with
    | none => return reply .nexist (some (-1))
    | some ip =>
      inodeLock ip
      let d ← act (.inodeLoad ip)
      if d.type = tDir ∧ omode ≠ 0 then
        inodeUnlockput ip
        return reply .diskOp (some (-1))
      else openInode ip omode

def sysMkdir (path : List Byte) : Code Reply := do
  beginTrans
  match ← create (userPath path) tDir with
  | none =>
    commitTrans
    return reply .diskOp none
  | some ip =>
    inodeUnlockput ip
    commitTrans
    return reply .succ none

def sysChdir (path : List Byte) : Code Reply := do
  match ← namei (userPath path) with
  | none => return reply .diskOp none
  | some ip =>
    inodeLock ip
    let d ← act (.inodeLoad ip)
    if d.type ≠ tDir then
      inodeUnlockput ip
      return reply .diskOp none
    else
      inodeUnlock ip
      match ← act .getCwd with
      | none => stop .nullPointer
      | some cwd =>
        inodePut cwd
        act (.setCwd ip)
        return reply .succ none

/-! ## `sys_ls` and `sys_pwd` -/

def workingDir : Code ℕ := do
  match ← act .getCwd with
  | some ip => return ip
  | none =>
    let ip ← act (.inodeGet 1)
    act (.setCwd ip)
    return ip

def lsLoop (dp : ℕ) : ℕ → ℕ → Code (List Byte)
  | 0, _ => stop .noEnd
  | fuel + 1, off => do
    let d ← act (.inodeLoad dp)
    if off < d.size.toNat then
      let de ← readDirent dp off
      let rest ← lsLoop dp fuel (off + direntSize)
      return (if de.inum = 0 then [] else cstring de.name ++ [0x20]) ++ rest
    else return []

def sysLs (bufLen : ℕ) : Code Reply := do
  let dp ← workingDir
  inodeLock dp
  let names ← lsLoop dp dirTurns 0
  inodeUnlock dp
  let len := min names.length bufLen
  return ⟨.succ, some len, (names.dropLast ++ [0]).take len⟩

def nameIn (dp : ℕ) (inum : BitVec 32) : ℕ → ℕ → Code (List Byte)
  | 0, _ => stop .noEnd
  | fuel + 1, off => do
    let d ← act (.inodeLoad dp)
    if off < d.size.toNat then
      let (r, data) ← inodeRead dp (BitVec.ofNat 32 off) (BitVec.ofNat 32 direntSize)
      if r ≠ direntSize then return []
      else
        let de := Dirent.decode data
        if de.inum.setWidth 32 = inum then return cstring de.name
        else nameIn dp inum fuel (off + direntSize)
    else return []

def pwdLoop : ℕ → ℕ → Code (List (List Byte))
  | 0, _ => stop .noEnd
  | fuel + 1, cur => do
    match ← dirLookup cur dotdot with
    | none => stop .nullPointer
    | some (parent, _) =>
      let p ← act (.inodeLoad parent)
      let c ← act (.inodeLoad cur)
      if p.inum = c.inum then return []
      else
        let name ← nameIn parent c.inum dirTurns 0
        let rest ← pwdLoop fuel parent
        return name :: rest

/-- `sys_pwd`, which follows the parents for at most `turns` levels.  The string it makes of the
names is left out. -/
def sysPwd (turns : ℕ) : Code Reply := do
  let cwd ← workingDir
  let _ ← pwdLoop turns cwd
  return reply .succ none

/-! ## The calls -/

/-- The system calls of the file system. -/
inductive Call
  | open (path : List Byte) (omode : BitVec 32)
  | close (fd : ℕ)
  | read (fd : ℕ) (userBuf n : BitVec 32)
  | write (fd : ℕ) (userBuf n : BitVec 32) (src : ℕ → Byte)
  | mkdir (path : List Byte)
  | chdir (path : List Byte)
  | link (old new : List Byte)
  | unlink (path : List Byte)
  | fstat (fd : ℕ) (userStp : BitVec 32)
  | ls (bufLen : ℕ)
  | pwd (turns : ℕ)

def Call.code : Call → Code Reply
  | .open path omode => sysOpen path omode
  | .close fd => sysClose fd
  | .read fd userBuf n => sysRead fd userBuf n
  | .write fd userBuf n src => sysWrite fd userBuf n src
  | .mkdir path => sysMkdir path
  | .chdir path => sysChdir path
  | .link old new => sysLink old new
  | .unlink path => sysUnlink path
  | .fstat fd userStp => sysFstat fd userStp
  | .ls bufLen => sysLs bufLen
  | .pwd turns => sysPwd turns

end MCertikos.Sysfile
