/-
# The redo log

The log occupies a region of the disk: a header block that lists home sectors, and one block after
it for each of them.
-/

import MCertikos.Math.Bytes
import MCertikos.Math.CrashProg
import Mathlib.Data.Int.Notation

namespace MCertikos.FS

open Math

abbrev bsize : ℕ := 512

def logsize : ℕ := 10

abbrev Sector := BitVec 32

abbrev Block := Bytes bsize

abbrev Disk := Sector → Block

abbrev DiskProg (α : Type) := Prog Sector Block α

/-- `struct logheader`.  The entries past `logsize` do not exist, and `n` never
reaches them. -/
structure LogHeader where
  n : BitVec 32
  sector : ℕ → Sector

def LogHeader.count (lh : LogHeader) : ℕ := lh.n.toInt.toNat

/-- The sectors of the log on disk. -/
structure Region where
  start : Sector
  size : BitVec 32

def Region.slotAddr (r : Region) (i : ℕ) : Sector := r.start + BitVec.ofNat 32 i + 1

/-- `struct log`. -/
structure Log extends Region where
  busy : Bool
  lh : LogHeader

namespace Log

variable (log : Log)

def boot (r : Region) : Log := ⟨r, false, ⟨0, fun _ => 0⟩⟩

def installOne (tail : ℕ) : DiskProg Unit := do
  let lbuf ← Prog.fetch (log.slotAddr tail)
  let _ ← Prog.fetch (log.lh.sector tail)
  Prog.store (log.lh.sector tail) lbuf

def installTrans : DiskProg Unit := Prog.loop log.installOne 0 log.lh.count

def readHead : DiskProg Log := do
  let buf ← Prog.fetch log.start
  let n := buf.word 0
  return { log with
    lh := ⟨n, fun i => if i < n.toInt.toNat then buf.word (i + 1) else log.lh.sector i⟩ }

def writeHead : DiskProg Unit := do
  let buf ← Prog.fetch log.start
  Prog.store log.start ((buf.setWord 0 log.lh.n).setWords 1 log.lh.sector log.lh.count)

def erase : Log := { log with lh := { log.lh with n := 0 } }

def recoverFromLog : DiskProg Log := do
  let log ← log.readHead
  log.installTrans
  log.erase.writeHead
  return log.erase

def beginTrans : Log := { log with busy := true }

def commitTrans : DiskProg Log := do
  if 0 < log.lh.n.toInt then
    log.writeHead
    log.installTrans
    log.erase.writeHead
    return { log.erase with busy := false }
  else
    return { log with busy := false }

def Full : Prop :=
  logsize ≤ log.lh.n.toInt ∨ (log.size - 1).toInt ≤ log.lh.n.toInt

instance (log : Log) : Decidable log.Full := by
  unfold Full
  infer_instance

def slot (sector : Sector) : ℕ :=
  ((List.range log.lh.count).find? fun i => log.lh.sector i = sector).getD log.lh.count

def record (sector : Sector) : Log :=
  let i := log.slot sector
  { log with
    lh := ⟨if (i : ℤ) = log.lh.n.toInt then log.lh.n + 1 else log.lh.n,
      Function.update log.lh.sector i sector⟩ }

def logWrite (sector : Sector) (data : Block) : DiskProg Log :=
  if log.Full then Prog.halt
  else if log.busy = false then Prog.halt
  else do
    let _ ← Prog.fetch (log.slotAddr (log.slot sector))
    Prog.store (log.slotAddr (log.slot sector)) data
    return log.record sector

def logWrites (log : Log) : List (Sector × Block) → DiskProg Log
  | [] => return log
  | (sector, data) :: writes => do
    let log ← log.logWrite sector data
    log.logWrites writes

def transaction (writes : List (Sector × Block)) : DiskProg Log := do
  let log ← log.logWrites writes
  log.commitTrans

end Log

end MCertikos.FS
