/-
# What file-system code may do

The first discipline is what the sleep locks need of the code: release a lock or end a transaction
only if it is one's own, lock an inode or drop a reference only with a reference of one's own,
keep a reference to every inode that stays locked, and use an entry of the file table only while
it is one's own.
-/

import MCertikos.Math.Exclusion
import MCertikos.Sysfile.State

namespace MCertikos.Sysfile

open Math FS

def File.RefersTo (file : File) : Option ℕ → Prop
  | some i => file.type = .inode ∧ file.ip = i
  | none => file.type ≠ .inode

def Act.writes : (a : Act) → a.Res → Bool
  | .inodeAddr _ _, addr => addr = 0
  | .bufEntry _ _, addr => addr = 0
  | .inodePutTest _, freed => freed
  | _, _ => false

namespace Proc

variable (l : Proc)

def LockOk : Act → Prop
  | .bufRelease b => ∃ sector, (b, sector) ∈ l.bufs
  | .logRelease => l.trans = true
  | .inodeAcquire i => 1 ≤ l.refs i
  | .inodeRelease i => i ∈ l.inodes
  | .inodePutTest i => 1 ≤ l.refs i ∧ (i ∈ l.inodes → 2 ≤ l.refs i)
  | .inodePutFinish i => i ∈ l.inodes ∧ 1 ≤ l.refs i
  | .fileClose f => ∃ ip, l.files f = some ip
  | .fileSetup f _ _ _ => ∃ ip, l.files f = some ip
  | .unlockBuf => l.bufLock = true
  | _ => True

def LockAllow : (a : Act) → a.Res → Prop
  | .logGet, log => l.trans = true → log.busy = true
  | .fileAlloc, some f => l.files f = none ∧ f < nfile
  | .fileClose f, r => ∃ file, r = some file ∧ ∀ ip, l.files f = some ip → file.RefersTo ip
  | .fileGet f, file => ∀ ip, l.files f = some ip → file.RefersTo ip
  | .getCwd, r => r = l.cwd
  | .getOpenfiles, r => r = l.openfiles
  | _, _ => True

def TransOk (a : Act) (r : a.Res) : Prop := a.writes r = true → l.trans = true

instance (a : Act) (r : a.Res) : Decidable (l.TransOk a r) :=
  inferInstanceAs (Decidable (_ → _))

end Proc

/-- **The discipline of the sleep locks.** -/
def locks : Discipline iface Proc where
  ok := Proc.LockOk
  allow := Proc.LockAllow
  next := Proc.after

structure Rules where
  /-- The code writes inside transactions only. -/
  strict : Prop
  /-- The code sleeps with `buf_lock` held. -/
  rw : Bool

namespace Rules

variable (R : Rules) (l : Proc)

def Ok : Act → Prop
  | .bufGet _ | .ideWait _ | .logAcquire | .inodeAcquire _ => l.bufLock = R.rw
  | .stop .writeOutsideTrans => ¬ R.strict
  | _ => True

def Allow (a : Act) (r : a.Res) : Prop := R.strict → l.TransOk a r

/-- **The discipline of the file-system code.** -/
def discipline : Discipline iface Proc where
  ok l a := l.LockOk a ∧ R.Ok l a
  allow l a r := l.LockAllow a r ∧ R.Allow l a r
  next := Proc.after

end Rules

/-! ## Processes outside the file system -/

namespace Proc

structure Unlocked (l : Proc) : Prop where
  trans : l.trans = false
  inodes : l.inodes = []
  bufs : l.bufs = []

instance (l : Proc) : Decidable l.Unlocked :=
  decidable_of_iff (l.trans = false ∧ l.inodes = [] ∧ l.bufs = [])
    ⟨fun ⟨h, h', h''⟩ => ⟨h, h', h''⟩, fun ⟨h, h', h''⟩ => ⟨h, h', h''⟩⟩

def needs (l : Proc) (i : ℕ) : ℕ :=
  (if l.cwd = some i then 1 else 0) +
    ∑ f ∈ Finset.range nfile, if l.files f = some (some i) then 1 else 0

/-- A process that is in no call. -/
structure Idle (l : Proc) : Prop extends l.Unlocked where
  recovering : l.recovering = false
  bufLock : l.bufLock = false
  own : ∀ fd f, l.openfiles fd = some f → f < nfile ∧ ∃ i, l.files f = some (some i)
  distinct : ∀ fd fd' f, l.openfiles fd = some f → l.openfiles fd' = some f → fd = fd'
  backed : ∀ i, l.needs i ≤ l.refs i

theorem idle_init : init.Idle where
  trans := rfl
  inodes := rfl
  bufs := rfl
  recovering := rfl
  bufLock := rfl
  own _ _ h := nomatch h
  distinct _ _ _ h := nomatch h
  backed i := by simp [needs, init]

end Proc

end MCertikos.Sysfile
