/-
# Inodes

The functions of `inode.c` that read and write the contents of an inode and free its blocks.
-/

import MCertikos.FS.Block

namespace MCertikos.FS

open Math

def ndirect : ℕ := 12

def nindirect : ℕ := 128

def maxfile : ℕ := ndirect + nindirect

def ndev : ℤ := 10

def tDev : BitVec 16 := 3

/-- An inode on disk. -/
structure Dinode where
  type : BitVec 16
  major : BitVec 16
  minor : BitVec 16
  nlink : BitVec 16
  size : BitVec 32
  addrs : Fin (ndirect + 1) → Sector

namespace Dinode

def addr (d : Dinode) (i : ℕ) : Sector := if h : i < ndirect + 1 then d.addrs ⟨i, h⟩ else 0

def setAddr (d : Dinode) (i : ℕ) (a : Sector) : Dinode :=
  { d with addrs := fun j => if j.val = i then a else d.addrs j }

def decode (data : Block) (k : ℕ) : Dinode where
  type := (data.word (16 * k)).extractLsb' 0 16
  major := (data.word (16 * k)).extractLsb' 16 16
  minor := (data.word (16 * k + 1)).extractLsb' 0 16
  nlink := (data.word (16 * k + 1)).extractLsb' 16 16
  size := data.word (16 * k + 2)
  addrs i := data.word (16 * k + (i.val + 3))

def words (d : Dinode) : ℕ → BitVec 32
  | 0 => d.major ++ d.type
  | 1 => d.nlink ++ d.minor
  | 2 => d.size
  | i + 3 => d.addr i

def encode (d : Dinode) (data : Block) (k : ℕ) : Block := data.setWords (16 * k) d.words 16

end Dinode

/-- An inode in memory, with `I_BUSY` and `I_VALID`. -/
structure Inode extends Dinode where
  inum : BitVec 32
  ref : ℤ
  busy : Bool
  valid : Bool

/-- The driver of a device, where it has one. -/
structure Devsw where
  read : Option (Inode → BitVec 32 → ℤ × List (BitVec 8))
  write : Option (Inode → (ℕ → BitVec 8) → BitVec 32 → ℤ)

namespace Inode

def setAddr (ip : Inode) (i : ℕ) (a : Sector) : Inode :=
  { ip with toDinode := ip.toDinode.setAddr i a }

def device (ip : Inode) (devsw : ℕ → Devsw) : Option Devsw :=
  if ip.major.toInt < 0 ∨ ndev ≤ ip.major.toInt then none else some (devsw ip.major.toNat)

end Inode

def iblock (inum : ℕ) : Sector := BitVec.ofNat 32 (inum / ipb + 2)

namespace Fs

def inodeUpdate (s : Fs) (ip : Inode) : Except Halt Fs := do
  let bno := iblock ip.inum.toNat
  let bp ← s.bufcacheRead [] bno
  s.logWrite [bno] bno (ip.encode bp (ip.inum.toNat % ipb))

def addrAlloc (s : Fs) (ip : Inode) (i : ℕ) : Except Halt (Sector × Inode × Fs) :=
  if ip.addr i = 0 then do
    let (addr, s) ← s.blockAlloc []
    return (addr, ip.setAddr i addr, s)
  else return (ip.addr i, ip, s)

/-- The part of `bmap` that takes an address of the indirect block `ind`, or allocates a
block for it. -/
def entryAlloc (s : Fs) (ind : Sector) (j : ℕ) : Except Halt (Sector × Fs) := do
  let bp ← s.bufcacheRead [] ind
  if bp.word j = 0 then do
    let (addr, s) ← s.blockAlloc [ind]
    let s ← s.logWrite [ind] ind (bp.setWord j addr)
    return (addr, s)
  else return (bp.word j, s)

/-- The disk block address of the `bn`-th block of an inode, allocated if there is no
such block. -/
def bmap (s : Fs) (ip : Inode) (bn : ℕ) : Except Halt (Sector × Inode × Fs) :=
  if bn < ndirect then s.addrAlloc ip bn
  else if bn - ndirect < nindirect then do
    let (ind, ip, s) ← s.addrAlloc ip ndirect
    let (addr, s) ← s.entryAlloc ind (bn - ndirect)
    return (addr, ip, s)
  else .error .bmapOutOfRange

def truncDirect (r : Inode × Fs) (i : ℕ) : Except Halt (Inode × Fs) :=
  let (ip, s) := r
  if ip.addr i = 0 then return (ip, s)
  else do
    let s ← s.blockFree [] (ip.addr i)
    return (ip.setAddr i 0, s)

def truncEntry (ind : Sector) (a : Block) (s : Fs) (j : ℕ) : Except Halt Fs :=
  if a.word j = 0 then return s else s.blockFree [ind] (a.word j)

def truncIndirect (s : Fs) (ip : Inode) : Except Halt (Inode × Fs) :=
  if ip.addr ndirect = 0 then return (ip, s)
  else do
    let bp ← s.bufcacheRead [] (ip.addr ndirect)
    let s ← (List.range nindirect).foldlM (truncEntry (ip.addr ndirect) bp) s
    let s ← s.blockFree [] (ip.addr ndirect)
    return (ip.setAddr ndirect 0, s)

def inodeTrunc (s : Fs) (ip : Inode) : Except Halt (Inode × Fs) := do
  let (ip, s) ← (List.range ndirect).foldlM truncDirect (ip, s)
  let (ip, s) ← s.truncIndirect ip
  let ip := { ip with size := 0 }
  let s ← s.inodeUpdate ip
  return (ip, s)

/-- Drop a reference to an in-memory inode; free the inode and its contents if that was
the last reference and the inode has no links. -/
def inodePut (s : Fs) (ip : Inode) : Except Halt (Inode × Fs) :=
  if ip.ref = 1 ∧ ip.valid ∧ ip.nlink = 0 then
    if ip.busy then .error .inodePutBusy
    else do
      let (ip, s) ← s.inodeTrunc { ip with busy := true }
      let ip := { ip with type := 0 }
      let s ← s.inodeUpdate ip
      return ({ ip with busy := false, valid := false, ref := ip.ref - 1 }, s)
  else return ({ ip with ref := ip.ref - 1 }, s)

def readBlock (s : Fs) (ip : Inode) (off m : ℕ) : Except Halt (List (BitVec 8) × Inode × Fs) := do
  let (addr, ip, s) ← s.bmap ip (off / bsize)
  let bp ← s.bufcacheRead [] addr
  return ((List.range m).map fun j => bp.byte (off % bsize + j), ip, s)

def readBlocks (s : Fs) (ip : Inode) (n tot off : ℕ) (dst : List (BitVec 8)) :
    Except Halt (List (BitVec 8) × Inode × Fs) :=
  if tot < n then
    let m := min (n - tot) (bsize - off % bsize)
    do
      let (data, ip, s) ← s.readBlock ip off m
      s.readBlocks ip n (tot + m) (off + m) (dst ++ data)
  else return (dst, ip, s)
termination_by n - tot
decreasing_by
  have hmod : off % bsize < bsize := Nat.mod_lt _ (by decide)
  omega

def inodeRead (devsw : ℕ → Devsw) (s : Fs) (ip : Inode) (off n : BitVec 32) :
    Except Halt (ℤ × List (BitVec 8) × Inode × Fs) :=
  if ip.type = tDev then
    match (ip.device devsw).bind Devsw.read with
    | none => return (-1, [], ip, s)
    | some read => return ((read ip n).1, (read ip n).2, ip, s)
  else if ip.size < off ∨ off + n < off then return (-1, [], ip, s)
  else
    let n := if ip.size < off + n then ip.size - off else n
    do
      let (dst, ip, s) ← s.readBlocks ip n.toNat 0 off.toNat []
      return (n.toInt, dst, ip, s)

def writeBlock (s : Fs) (ip : Inode) (src : ℕ → BitVec 8) (off m : ℕ) :
    Except Halt (Inode × Fs) := do
  let (addr, ip, s) ← s.bmap ip (off / bsize)
  let bp ← s.bufcacheRead [] addr
  let s ← s.logWrite [addr] addr (bp.memmove (off % bsize) m src)
  return (ip, s)

def writeBlocks (s : Fs) (ip : Inode) (src : ℕ → BitVec 8) (n tot off : ℕ) :
    Except Halt (ℕ × Inode × Fs) :=
  if tot < n then
    let m := min (n - tot) (bsize - off % bsize)
    do
      let (ip, s) ← s.writeBlock ip (fun j => src (tot + j)) off m
      s.writeBlocks ip src n (tot + m) (off + m)
  else return (off, ip, s)
termination_by n - tot
decreasing_by
  have hmod : off % bsize < bsize := Nat.mod_lt _ (by decide)
  omega

def inodeWrite (devsw : ℕ → Devsw) (s : Fs) (ip : Inode) (src : ℕ → BitVec 8)
    (off n : BitVec 32) : Except Halt (ℤ × Inode × Fs) :=
  if ip.type = tDev then
    match (ip.device devsw).bind Devsw.write with
    | none => return (-1, ip, s)
    | some write => return (write ip src n, ip, s)
  else if ip.size < off ∨ off + n < off then return (-1, ip, s)
  else if BitVec.ofNat 32 (maxfile * bsize) < off + n then return (-1, ip, s)
  else do
    let (off, ip, s) ← s.writeBlocks ip src n.toNat 0 off.toNat
    if 0 < n.toNat ∧ ip.size.toNat < off then
      let ip := { ip with size := BitVec.ofNat 32 off }
      do
        let s ← s.inodeUpdate ip
        return (n.toInt, ip, s)
    else return (n.toInt, ip, s)

end Fs

end MCertikos.FS
