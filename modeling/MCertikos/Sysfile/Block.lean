/-
# Buffers, the log and the bitmap, as resumable code

The functions of `bufcache.c`, `ide.c`, `log.c` and `block.c`.
-/

import MCertikos.Sysfile.State

namespace MCertikos.Sysfile

open Math FS

def act (a : Act) : Code a.Res := Task.perform (I := iface) a

def stop {β : Type} (reason : Stop) : Code β :=
  Task.act (I := iface) (.stop reason) fun r => nomatch r

/-! ## `bufcache.c` and `ide.c` -/

def ideRw (b : ℕ) : Code Unit := do
  act (.ideSubmit b)
  act (.ideWait b)

def bufcacheRead (sector : Sector) : Code ℕ := do
  let b ← act (.bufGet sector)
  let valid ← act (.bufValid b)
  if valid then return b
  else
    ideRw b
    return b

def bufcacheWrite (b : ℕ) : Code Unit := do
  act (.bufWrite b)
  ideRw b

def bufcacheRelease (b : ℕ) : Code Unit := act (.bufRelease b)

/-! ## `log.c` -/

def readSuperblock : Code Superblock := do
  let bp ← bufcacheRead 1
  let sb ← act (.bufSuperblock bp)
  bufcacheRelease bp
  return sb

def installOne (log : Log) (tail : ℕ) : Code Unit := do
  let lbuf ← bufcacheRead (log.slotAddr tail)
  let log ← act .logGet
  let dbuf ← bufcacheRead (log.lh.sector tail)
  let data ← act (.bufData lbuf)
  act (.bufModify dbuf fun _ => data)
  bufcacheWrite dbuf
  bufcacheRelease lbuf
  bufcacheRelease dbuf

def installFrom : ℕ → ℕ → Code Unit
  | 0, _ => stop .noEnd
  | fuel + 1, tail => do
    let log ← act .logGet
    if tail < log.lh.count then
      installOne log tail
      installFrom fuel (tail + 1)
    else return ()

/-- Copy committed blocks from the log to their home sectors.  The count is an `int`, so the
loop ends within `2 ^ 31` turns. -/
def installTrans : Code Unit := installFrom (2 ^ 31) 0

def decodeHeader (data : Block) (lh : LogHeader) : LogHeader :=
  ⟨data.word 0, fun i => if i < (data.word 0).toInt.toNat then data.word (i + 1) else lh.sector i⟩

def readHead : Code Unit := do
  let log ← act .logGet
  let buf ← bufcacheRead log.start
  let data ← act (.bufData buf)
  act (.logModify (decodeHeader data))
  bufcacheRelease buf

def writeHead : Code Unit := do
  let log ← act .logGet
  let buf ← bufcacheRead log.start
  let log ← act .logGet
  act (.bufModify buf fun data =>
    (data.setWord 0 log.lh.n).setWords 1 log.lh.sector log.lh.count)
  bufcacheWrite buf
  bufcacheRelease buf

def eraseHeader : Code Unit := act (.logModify fun lh => { lh with n := 0 })

def recoverFromLog : Code Unit := do
  readHead
  installTrans
  eraseHeader
  writeHead

def logInit : Code Unit := do
  let sb ← readSuperblock
  act (.logSetRegion ⟨sb.size - sb.nlog, sb.nlog⟩)
  recoverFromLog

def beginTrans : Code Unit := act .logAcquire

def commitTrans : Code Unit := do
  let log ← act .logGet
  if 0 < log.lh.n.toInt then
    writeHead
    installTrans
    eraseHeader
    writeHead
  act .logRelease

def recordSector (i : ℕ) (sector : Sector) (lh : LogHeader) : LogHeader :=
  { lh with sector := Function.update lh.sector i sector }

def countSlot (i : ℕ) (lh : LogHeader) : LogHeader :=
  if (i : ℤ) = lh.n.toInt then { lh with n := lh.n + 1 } else lh

def logWrite (b : ℕ) (sector : Sector) : Code Unit := do
  let log ← act .logGet
  if log.Full then stop .tooBigTransaction
  else if log.busy = false then stop .writeOutsideTrans
  else
    let i := log.slot sector
    act (.logModify (recordSector i sector))
    let lbuf ← bufcacheRead (log.slotAddr i)
    let data ← act (.bufData b)
    act (.bufModify lbuf fun _ => data)
    bufcacheWrite lbuf
    bufcacheRelease lbuf
    act (.logModify (countSlot i))
    act (.bufSetDirty b)

/-! ## `block.c` -/

def blockZero (bno : Sector) : Code Unit := do
  let bp ← bufcacheRead bno
  act (.bufModify bp fun _ _ => 0)
  logWrite bp bno
  bufcacheRelease bp

def allocFrom (sb : Superblock) : List ℕ → Code Sector
  | [] => stop .noReturnValue
  | k :: ks => do
    let bno := bblock (k * bpb) sb.ninodes
    let bp ← bufcacheRead bno
    match ← act (.bufFirstFree bp (k * bpb) sb.size.toNat) with
    | some bi =>
      act (.bufModify bp fun data => data.orBit bi)
      logWrite bp bno
      bufcacheRelease bp
      blockZero (BitVec.ofNat 32 (k * bpb + bi))
      return BitVec.ofNat 32 (k * bpb + bi)
    | none =>
      bufcacheRelease bp
      allocFrom sb ks

def blockAlloc : Code Sector := do
  let sb ← readSuperblock
  allocFrom sb (List.range ((sb.size.toNat + (bpb - 1)) / bpb))

def blockFree (b : Sector) : Code Unit := do
  let sb ← readSuperblock
  let bno := bblock b.toNat sb.ninodes
  let bp ← bufcacheRead bno
  let bi := b.toNat % bpb
  let data ← act (.bufData bp)
  if data.testBit bi = false then stop .freeingFreeBlock
  else
    act (.bufModify bp fun data => data.clearBit bi)
    logWrite bp bno
    bufcacheRelease bp

end MCertikos.Sysfile
