/-
# Inodes, directories and paths, as resumable code

The functions of `inode.c`, `dir.c` and `path.c`; `FS.Dir` has them as run by one process alone.
-/

import MCertikos.Sysfile.Block

namespace MCertikos.Sysfile

open Math FS

abbrev Byte := BitVec 8

def tDir : BitVec 16 := 1

def tFile : BitVec 16 := 2

def dirsiz : ℕ := 14

def direntSize : ℕ := 16

/-! ## `inode.c` -/

def freshDinode (type : BitVec 16) : Dinode := ⟨type, 0, 0, 0, 0, fun _ => 0⟩

def allocInode (type : BitVec 16) : List ℕ → Code ℕ
  | [] => stop .noFreeInode
  | inum :: rest => do
    let bp ← bufcacheRead (iblock inum)
    let data ← act (.bufData bp)
    if (Dinode.decode data (inum % ipb)).type = 0 then
      act (.bufModify bp fun data => (freshDinode type).encode data (inum % ipb))
      logWrite bp (iblock inum)
      bufcacheRelease bp
      act (.inodeGet (BitVec.ofNat 32 inum))
    else
      bufcacheRelease bp
      allocInode type rest

def inodeAlloc (type : BitVec 16) : Code ℕ := do
  let sb ← readSuperblock
  allocInode type (List.range' 1 (sb.ninodes.toNat - 1))

def inodeUpdate (i : ℕ) : Code Unit := do
  let ip ← act (.inodeLoad i)
  let bp ← bufcacheRead (iblock ip.inum.toNat)
  let ip' ← act (.inodeLoad i)
  act (.bufModify bp fun data => ip'.toDinode.encode data (ip.inum.toNat % ipb))
  logWrite bp (iblock ip.inum.toNat)
  bufcacheRelease bp

def inodeLock (i : ℕ) : Code Unit := do
  act (.inodeAcquire i)
  let ip ← act (.inodeLoad i)
  if ip.valid then return ()
  else
    let bp ← bufcacheRead (iblock ip.inum.toNat)
    let data ← act (.bufData bp)
    let dip := Dinode.decode data (ip.inum.toNat % ipb)
    act (.inodeModify i fun _ => dip)
    bufcacheRelease bp
    act (.inodeSetValid i)
    if dip.type = 0 then stop .noType else return ()

def inodeUnlock (i : ℕ) : Code Unit := act (.inodeRelease i)

def truncDirect (i k : ℕ) : Code Unit := do
  let addr ← act (.inodeAddr i k)
  if addr = 0 then return ()
  else
    blockFree addr
    act (.inodeModify i fun d => d.setAddr k 0)

def truncEntry (bp j : ℕ) : Code Unit := do
  let addr ← act (.bufEntry bp j)
  if addr = 0 then return () else blockFree addr

def truncIndirect (i : ℕ) : Code Unit := do
  let addr ← act (.inodeAddr i ndirect)
  if addr = 0 then return ()
  else
    let bp ← bufcacheRead addr
    Task.each (truncEntry bp) (List.range nindirect)
    bufcacheRelease bp
    blockFree addr
    act (.inodeModify i fun d => d.setAddr ndirect 0)

def inodeTrunc (i : ℕ) : Code Unit := do
  Task.each (truncDirect i) (List.range ndirect)
  truncIndirect i
  act (.inodeModify i fun d => { d with size := 0 })
  inodeUpdate i

def inodePut (i : ℕ) : Code Unit := do
  if ← act (.inodePutTest i) then
    inodeTrunc i
    act (.inodeModify i fun d => { d with type := 0 })
    inodeUpdate i
    act (.inodePutFinish i)
  else return ()

def inodeUnlockput (i : ℕ) : Code Unit := do
  inodeUnlock i
  inodePut i

def addrAlloc (i k : ℕ) : Code Sector := do
  let addr ← act (.inodeAddr i k)
  if addr = 0 then
    let addr ← blockAlloc
    act (.inodeModify i fun d => d.setAddr k addr)
    return addr
  else return addr

def entryAlloc (ind : Sector) (j : ℕ) : Code Sector := do
  let bp ← bufcacheRead ind
  let addr ← act (.bufEntry bp j)
  if addr = 0 then
    let addr ← blockAlloc
    act (.bufModify bp fun data => data.setWord j addr)
    logWrite bp ind
    bufcacheRelease bp
    return addr
  else
    bufcacheRelease bp
    return addr

def bmap (i bn : ℕ) : Code Sector :=
  if bn < ndirect then addrAlloc i bn
  else if bn - ndirect < nindirect then do
    let ind ← addrAlloc i ndirect
    entryAlloc ind (bn - ndirect)
  else stop .bmapOutOfRange

def readLoop (i n : ℕ) : ℕ → ℕ → ℕ → Code (List Byte)
  | 0, _, _ => return []
  | fuel + 1, tot, off =>
    if tot < n then do
      let addr ← bmap i (off / bsize)
      let bp ← bufcacheRead addr
      let m := min (n - tot) (bsize - off % bsize)
      let data ← act (.bufData bp)
      bufcacheRelease bp
      let rest ← readLoop i n fuel (tot + m) (off + m)
      return (List.range m).map (fun j => data.byte (off % bsize + j)) ++ rest
    else return []

def deviceAccess {β : Type} (ip : Inode) (refused : β) : Code β :=
  if ip.major.toInt < 0 ∨ ndev ≤ ip.major.toInt then return refused else stop .nullPointer

def inodeRead (i : ℕ) (off n : BitVec 32) : Code (ℤ × List Byte) := do
  let ip ← act (.inodeLoad i)
  if ip.type = tDev then deviceAccess ip (-1, [])
  else if ip.size < off ∨ off + n < off then return (-1, [])
  else
    let n := if ip.size < off + n then ip.size - off else n
    let data ← readLoop i n.toNat n.toNat 0 off.toNat
    return (n.toInt, data)

def writeLoop (i n : ℕ) (src : ℕ → Byte) : ℕ → ℕ → ℕ → Code ℕ
  | 0, _, off => return off
  | fuel + 1, tot, off =>
    if tot < n then do
      let addr ← bmap i (off / bsize)
      let bp ← bufcacheRead addr
      let m := min (n - tot) (bsize - off % bsize)
      act (.bufModify bp fun data => data.memmove (off % bsize) m fun j => src (tot + j))
      logWrite bp addr
      bufcacheRelease bp
      writeLoop i n src fuel (tot + m) (off + m)
    else return off

def inodeWrite (i : ℕ) (src : ℕ → Byte) (off n : BitVec 32) : Code ℤ := do
  let ip ← act (.inodeLoad i)
  if ip.type = tDev then deviceAccess ip (-1)
  else if ip.size < off ∨ off + n < off then return -1
  else if BitVec.ofNat 32 (maxfile * bsize) < off + n then return -1
  else
    let off ← writeLoop i n.toNat src n.toNat 0 off.toNat
    let ip ← act (.inodeLoad i)
    if 0 < n.toNat ∧ ip.size.toNat < off then
      act (.inodeModify i fun d => { d with size := BitVec.ofNat 32 off })
      inodeUpdate i
      return n.toInt
    else return n.toInt

/-! ## `dir.c` -/

structure Dirent where
  inum : BitVec 16
  name : List Byte

def Dirent.decode (data : List Byte) : Dirent :=
  ⟨data.getD 1 0 ++ data.getD 0 0, (data.drop 2).take dirsiz⟩

def Dirent.encode (de : Dirent) : List Byte :=
  de.inum.extractLsb' 0 8 :: de.inum.extractLsb' 8 8 ::
    (de.name.take dirsiz ++ List.replicate (dirsiz - de.name.length) 0)

def cstring (data : List Byte) : List Byte := data.takeWhile (· ≠ 0)

def strncmp : ℕ → List Byte → List Byte → ℤ
  | 0, _, _ => 0
  | n + 1, p, q =>
    if p.headD 0 ≠ 0 ∧ p.headD 0 = q.headD 0 then strncmp n p.tail q.tail
    else (p.headD 0).toNat - (q.headD 0).toNat

def strncpy : ℕ → List Byte → List Byte
  | 0, _ => []
  | n + 1, t =>
    if t.headD 0 ≠ 0 then t.headD 0 :: strncpy n t.tail
    else 0 :: List.replicate n 0

def dirNamecmp (s t : List Byte) : ℤ := strncmp dirsiz s t

def readDirent (dp off : ℕ) : Code Dirent := do
  let (r, data) ← inodeRead dp (BitVec.ofNat 32 off) (BitVec.ofNat 32 direntSize)
  if r = direntSize then return Dirent.decode data else stop .dirRead

/-- A loop over the entries of a directory up to the first one with the property. -/
def scanDir (dp : ℕ) (found : Dirent → Bool) : ℕ → ℕ → Code (Option Dirent × ℕ)
  | 0, _ => stop .noEnd
  | fuel + 1, off => do
    let d ← act (.inodeLoad dp)
    if off < d.size.toNat then
      let de ← readDirent dp off
      if found de then return (some de, off)
      else scanDir dp found fuel (off + direntSize)
    else return (none, off)

def dirTurns : ℕ := 2 ^ 28

def dirLookup (dp : ℕ) (name : List Byte) : Code (Option (ℕ × ℕ)) := do
  let d ← act (.inodeLoad dp)
  if d.type = tDir then
    match ← scanDir dp (fun de => de.inum ≠ 0 && dirNamecmp de.name name = 0) dirTurns 0 with
    | (some de, off) =>
      let ip ← act (.inodeGet (de.inum.setWidth 32))
      return some (ip, off)
    | (none, _) => return none
  else stop .notDir

def writeDirent (dp : ℕ) (de : Dirent) (off : ℕ) : Code Unit := do
  let r ← inodeWrite dp (fun j => de.encode.getD j 0) (BitVec.ofNat 32 off)
    (BitVec.ofNat 32 direntSize)
  if r = direntSize then return () else stop .dirWrite

def dirLink (dp : ℕ) (name : List Byte) (inum : BitVec 32) : Code Bool := do
  match ← dirLookup dp name with
  | some (ip, _) =>
    inodePut ip
    return false
  | none =>
    let (_, off) ← scanDir dp (fun de => de.inum = 0) dirTurns 0
    writeDirent dp ⟨inum.setWidth 16, strncpy dirsiz name⟩ off
    return true

/-! ## `path.c` -/

def slash : Byte := 0x2f

def skipelem (path : List Byte) : Option (List Byte × List Byte) :=
  let start := path.dropWhile (· = slash)
  if start = [] then none
  else some ((start.takeWhile (· ≠ slash)).take (dirsiz - 1),
    (start.dropWhile (· ≠ slash)).dropWhile (· = slash))

def namexLoop (parent : Bool) : ℕ → ℕ → List Byte → List Byte → Code (Option (ℕ × List Byte))
  | 0, _, _, _ => stop .noEnd
  | fuel + 1, ip, path, name =>
    match skipelem path with
    | none =>
      if parent then do
        inodePut ip
        return none
      else return some (ip, name)
    | some (name, path) => do
      inodeLock ip
      let d ← act (.inodeLoad ip)
      if d.type ≠ tDir then
        inodeUnlockput ip
        return none
      else if parent ∧ path = [] then
        inodeUnlock ip
        return some (ip, name)
      else
        match ← dirLookup ip name with
        | none =>
          inodeUnlockput ip
          return none
        | some (subdir, _) =>
          inodeUnlockput ip
          namexLoop parent fuel subdir path name

def startInode (path : List Byte) : Code ℕ :=
  if path.head? = some slash then act (.inodeGet 1)
  else do
    match ← act .getCwd with
    | none => stop .nullPointer
    | some ip =>
      act (.inodeDup ip)
      return ip

def namex (path : List Byte) (parent : Bool) : Code (Option (ℕ × List Byte)) := do
  let ip ← startInode path
  namexLoop parent (path.length + 1) ip path []

def namei (path : List Byte) : Code (Option ℕ) := do
  let r ← namex path false
  return r.map Prod.fst

def nameiparent (path : List Byte) : Code (Option (ℕ × List Byte)) := namex path true

end MCertikos.Sysfile
