/-
# Disk blocks and the free bitmap

The buffer cache as its clients see it, and the functions of `block.c` on top of it.
-/

import MCertikos.FS.Recovery
import MCertikos.Math.Outcome

namespace MCertikos.FS

open Math

def nbuf : ℕ := 10

/-- Inodes per block. -/
def ipb : ℕ := 8

/-- Bits of a bitmap block. -/
def bpb : ℕ := 4096

/-- Why a function does not return. -/
inductive Halt
  /-- `log_write`: "too big a transaction". -/
  | tooBigTransaction
  /-- `log_write`: "write outside of trans". -/
  | writeOutsideTrans
  /-- `bufcache_get`: "no buffers". -/
  | noBuffers
  /-- `bufcache_get` sleeps on a buffer its own thread holds. -/
  | deadlock
  /-- `block_free`: "freeing free block". -/
  | freeingFreeBlock
  /-- `block_alloc` ends without a `return`, and its caller uses the value. -/
  | noReturnValue
  /-- `bmap`: "out of range". -/
  | bmapOutOfRange
  /-- `inode_put`: "inode_put busy". -/
  | inodePutBusy
  deriving DecidableEq, Repr

/-- The layout of the file system, from block 1. -/
structure Superblock where
  size : BitVec 32
  nblocks : BitVec 32
  ninodes : BitVec 32
  nlog : BitVec 32
  deriving DecidableEq

def Superblock.decode (data : Block) : Superblock :=
  ⟨data.word 0, data.word 1, data.word 2, data.word 3⟩

/-- The bitmap block with the bit of block `b`. -/
def bblock (b : ℕ) (ninodes : BitVec 32) : Sector :=
  BitVec.ofNat 32 (b / bpb + ninodes.toNat / ipb + 3)

/-- What the cache returns for each sector, and the log. -/
structure Fs where
  cache : Disk
  log : Log

namespace Fs

/-- `bufcache_read` by a thread that holds the buffers of `held`.  Logged sectors pin theirs. -/
def bufcacheRead (s : Fs) (held : List Sector) (sector : Sector) : Except Halt Block :=
  if sector ∈ held then .error .deadlock
  else if sector ∉ s.log.sectors ∧ nbuf ≤ (s.log.sectors ∪ held.toFinset).card then
    .error .noBuffers
  else .ok (s.cache sector)

/-- `log_write`, which also writes the data to a slot of the log. -/
def logWrite (s : Fs) (held : List Sector) (sector : Sector) (data : Block) : Except Halt Fs :=
  if s.log.Full then .error .tooBigTransaction
  else if s.log.busy = false then .error .writeOutsideTrans
  else do
    let slot := s.log.slotAddr (s.log.slot sector)
    let _ ← s.bufcacheRead held slot
    return ⟨Function.update (Function.update s.cache slot data) sector data,
      s.log.record sector⟩

def readSuperblock (s : Fs) (held : List Sector) : Except Halt Superblock := do
  let bp ← s.bufcacheRead held 1
  return Superblock.decode bp

def blockZero (s : Fs) (held : List Sector) (bno : Sector) : Except Halt Fs := do
  let _ ← s.bufcacheRead held bno
  s.logWrite (bno :: held) bno fun _ => 0

/-- The inner loop of `block_alloc`. -/
def firstFree (data : Block) (b size : ℕ) : Option ℕ :=
  (List.range bpb).find? fun bi => b + bi < size && !data.testBit bi

/-- The body of the outer loop of `block_alloc`, for the bitmap block with the bits from
`b` on: the block it returns, if one is free. -/
def allocIn (s : Fs) (held : List Sector) (sb : Superblock) (b : ℕ) :
    Except Halt (Option (Sector × Fs)) := do
  let bno := bblock b sb.ninodes
  let bp ← s.bufcacheRead held bno
  match firstFree bp b sb.size.toNat with
  | none => return none
  | some bi => do
    let s ← s.logWrite (bno :: held) bno (bp.orBit bi)
    let s ← s.blockZero held (BitVec.ofNat 32 (b + bi))
    return some (BitVec.ofNat 32 (b + bi), s)

/-- The outer loop of `block_alloc`. -/
def allocFrom (s : Fs) (held : List Sector) (sb : Superblock) : List ℕ → Except Halt (Sector × Fs)
  | [] => .error .noReturnValue
  | k :: ks => do
    match ← s.allocIn held sb (k * bpb) with
    | some result => return result
    | none => s.allocFrom held sb ks

def blockAlloc (s : Fs) (held : List Sector) : Except Halt (Sector × Fs) := do
  let sb ← s.readSuperblock held
  s.allocFrom held sb (List.range ((sb.size.toNat + (bpb - 1)) / bpb))

def blockFree (s : Fs) (held : List Sector) (b : Sector) : Except Halt Fs := do
  let sb ← s.readSuperblock held
  let bno := bblock b.toNat sb.ninodes
  let bp ← s.bufcacheRead held bno
  let bi := b.toNat % bpb
  if bp.testBit bi = false then .error .freeingFreeBlock
  else s.logWrite (bno :: held) bno (bp.clearBit bi)

end Fs

def logInit : DiskProg Log := do
  let bp ← Prog.fetch 1
  let sb := Superblock.decode bp
  (Log.boot ⟨sb.size - sb.nlog, sb.nlog⟩).recoverFromLog

namespace Fs

/-- The file system as recovery leaves it. -/
def mount (disk : Disk) : Option Fs :=
  (logInit.run disk).map fun (log, disk) => ⟨disk, log⟩

def beginTrans (s : Fs) : Option Fs :=
  if s.log.busy then none else some ⟨s.cache, s.log.beginTrans⟩

def commitTrans (s : Fs) : Option Fs :=
  (s.log.commitTrans.run s.cache).map fun (log, cache) => ⟨cache, log⟩

end Fs

end MCertikos.FS
