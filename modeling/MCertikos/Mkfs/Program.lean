/-
# The program that makes a file system

`mkfs.c` builds the image of a file system out of a list of files.
-/

import MCertikos.FS.BlockRuns
import MCertikos.FS.Dirent
import MCertikos.Sysfile.Calls

namespace MCertikos.Mkfs

open FS
open Math
open Sysfile (Byte Dirent dirsiz dot dotdot slash strncpy tDir tFile)

def nblocks : ℕ := 985

def nlog : ℕ := 10

def ninodes : ℕ := 200

def size : ℕ := 1024

def bitblocks : ℕ := size / (512 * 8) + 1

def metaBlocks : ℕ := ninodes / ipb + 3 + bitblocks

def rootino : ℕ := 1

/-- A file that the program is called with: its name on the command line, and what the calls
of `read` on it return until its end. -/
structure InputFile where
  arg : List Byte
  reads : List (List Byte)
  no_null : 0 ∉ arg
  reads_length : ∀ p ∈ reads, 0 < p.length ∧ p.length ≤ 512

namespace InputFile

def name (f : InputFile) : List Byte := if f.arg.head? = some 0x5f then f.arg.tail else f.arg

def bytes (f : InputFile) : List Byte := f.reads.flatten

end InputFile

/-- The image, and the counters of `mkfs`. -/
structure Image where
  disk : Disk
  freeblock : ℕ
  usedblocks : ℕ
  freeinode : ℕ

def Image.write (s : Image) (pos : Sector) (buf : Block) : Image :=
  { s with disk := Function.update s.disk pos buf }

def Image.next (s : Image) : Image :=
  { s with freeblock := s.freeblock + 1, usedblocks := s.usedblocks + 1 }

inductive Failure
  /-- `exit(1)`: a sector is not part of the image. -/
  | sector
  /-- A failed assertion. -/
  | assertion
  deriving DecidableEq

abbrev MkfsM := StateT Image (Except Failure)

def seek (sec : Sector) : MkfsM Sector :=
  if sec.toNat * 512 % 2 ^ 32 < size * 512 then
    return BitVec.ofNat 32 (sec.toNat * 512 % 2 ^ 32 / 512)
  else throw .sector

def rsect (sec : Sector) : MkfsM Block := do
  let pos ← seek sec
  let s ← get
  return s.disk pos

def wsect (sec : Sector) (buf : Block) : MkfsM Unit := do
  let pos ← seek sec
  modify fun s => s.write pos buf

def require (p : Prop) [Decidable p] : MkfsM Unit := if p then return () else throw .assertion

def winode (inum : ℕ) (ip : Dinode) : MkfsM Unit := do
  let buf ← rsect (iblock inum)
  wsect (iblock inum) (ip.encode buf (inum % ipb))

def rinode (inum : ℕ) : MkfsM Dinode := do
  let buf ← rsect (iblock inum)
  return Dinode.decode buf (inum % ipb)

def ialloc (type : BitVec 16) : MkfsM ℕ := do
  let s ← get
  set { s with freeinode := s.freeinode + 1 }
  winode s.freeinode ⟨type, 0, 0, 1, 0, fun _ => 0⟩
  return s.freeinode

def nextBlock : MkfsM Sector := do
  let s ← get
  set s.next
  return BitVec.ofNat 32 s.freeblock

def addrFor (din : Dinode) (k : ℕ) : MkfsM (Sector × Dinode) := do
  if din.addr k = 0 then
    let x ← nextBlock
    return (x, din.setAddr k x)
  else return (din.addr k, din)

def entryFor (ind : Sector) (j : ℕ) : MkfsM Sector := do
  let indirect ← rsect ind
  if indirect.word j = 0 then
    let x ← nextBlock
    wsect ind (indirect.setWord j x)
    return x
  else return indirect.word j

def blockFor (din : Dinode) (fbn : ℕ) : MkfsM (Sector × Dinode) :=
  if fbn < ndirect then addrFor din fbn
  else do
    let (ind, din) ← addrFor din ndirect
    let x ← entryFor ind (fbn - ndirect)
    return (x, din)

def appendBlock (din : Dinode) (off : ℕ) (p : List Byte) : MkfsM Dinode := do
  let fbn := off / 512
  require (fbn < maxfile)
  let (x, din) ← blockFor din fbn
  let buf ← rsect x
  wsect x (buf.memmove (off - fbn * 512) p.length fun j => p.getD j 0)
  return din

def appendBlocks (din : Dinode) (off : ℕ) (p : List Byte) : MkfsM (Dinode × ℕ) :=
  if 0 < p.length then do
    let n := min p.length ((off / 512 + 1) * 512 - off)
    let din ← appendBlock din off (p.take n)
    appendBlocks din (off + n) (p.drop n)
  else return (din, off)
termination_by p.length
decreasing_by
  rw [List.length_drop]
  omega

def iappend (inum : ℕ) (p : List Byte) : MkfsM Unit := do
  let din ← rinode inum
  let (din, off) ← appendBlocks din din.size.toNat p
  winode inum { din with size := BitVec.ofNat 32 off }

def entry (inum : ℕ) (name : List Byte) : List Byte :=
  Dirent.encode ⟨BitVec.ofNat 16 inum, strncpy dirsiz name⟩

def addFile (f : InputFile) : MkfsM Unit := do
  require (slash ∉ f.arg)
  let inum ← ialloc tFile
  iappend rootino (entry inum f.name)
  f.reads.forM (iappend inum)

def roundUp (off : ℕ) : ℕ := (off / bsize + 1) * bsize

def superblock : Superblock :=
  ⟨BitVec.ofNat 32 size, BitVec.ofNat 32 nblocks, BitVec.ofNat 32 ninodes, BitVec.ofNat 32 nlog⟩

def makeRoot : MkfsM ℕ := do
  let root ← ialloc tDir
  require (root = rootino)
  iappend root (entry root dot)
  iappend root (entry root dotdot)
  return root

/-- The part of `main` after the files: fix the size of the root directory, and write the
bitmap. -/
def finish (root : ℕ) : MkfsM Unit := do
  let din ← rinode root
  winode root { din with size := BitVec.ofNat 32 (roundUp din.size.toNat) }
  let s ← get
  require (s.usedblocks < 512 * 8)
  wsect (BitVec.ofNat 32 (ninodes / ipb + 3)) (balloc s.usedblocks)

def main (files : List InputFile) : MkfsM Unit := do
  wsect 1 superblock.encode
  let root ← makeRoot
  files.forM addFile
  finish root

def zeroes : Image := ⟨fun _ _ => 0, metaBlocks, metaBlocks, 1⟩

def mkfs (files : List InputFile) : Except Failure Image := (main files zeroes).map Prod.snd

end MCertikos.Mkfs
