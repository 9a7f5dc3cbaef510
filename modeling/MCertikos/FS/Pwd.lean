/-
# The path of the working directory

`sys_pwd` climbs from the working directory to the root and looks each directory up in its parent.
-/

import MCertikos.FS.Descriptors
import MCertikos.FS.Listing

namespace MCertikos.FS

open Math UserMem Function
open Sysfile (Byte Dirent dirTurns direntSize dirsiz dotdot slash strncpy)

def sysPwdNr : BitVec 32 := 20

abbrev Rows := ℕ → Byte

namespace Rows

def row (arr : Rows) (i : ℕ) : List Byte := (List.range 100).map fun j => arr (100 * i + j)

def store (arr : Rows) (len : ℕ) (name : List Byte) : Rows := fun a =>
  if 100 * len ≤ a ∧ a < 100 * len + dirsiz then (strncpy dirsiz name).getD (a - 100 * len) 0
  else if a = 100 * len + dirsiz then 0 else arr a

def join (arr : Rows) : ℕ → ℕ → Rows × ℕ
  | 0, p => (update arr p 0, p)
  | i + 1, p =>
    let p := p + strnlen (arr.row i) 100
    join (update arr p slash) i (p + 1)

end Rows

section Model

variable (devsw : ℕ → Devsw)

def nameLoop (parent : ℕ) (inum : BitVec 32) (arr : Rows) (len : ℕ) :
    ℕ → ℕ → CacheM (Rows × ℕ)
  | 0, _ => kernPanic .noEnd
  | fuel + 1, off => do
    let c ← get
    if off < (c.inode parent).size.toNat then
      let (r, data) ← inodeRead devsw parent (BitVec.ofNat 32 off) (BitVec.ofNat 32 direntSize)
      let de := Dirent.decode data
      if r ≠ direntSize then return (arr, len)
      else if de.inum.setWidth 32 = inum then return (arr.store len de.name, len + 1)
      else nameLoop parent inum arr len fuel (off + direntSize)
    else return (arr, len)

def parentOf (dp : ℕ) : CacheM ℕ := do
  match ← dirLookup devsw dp dotdot with
  | some (parent, _) => return parent
  | none => kernPanic .nullPointer

def pwdLoop : ℕ → ℕ → ℕ → Rows → ℕ → CacheM (Rows × ℕ)
  | 0, _, _, _, _ => kernPanic .noEnd
  | fuel + 1, cur, parent, arr, len => do
    let c ← get
    if (c.inode parent).inum ≠ (c.inode cur).inum then
      let (arr, len) ← nameLoop devsw parent (c.inode cur).inum arr len dirTurns 0
      let next ← parentOf devsw parent
      pwdLoop fuel parent next arr len
    else return (arr, len)

/-- What `sys_pwd` leaves: the working directory, the text in `arr` and its end, and the memory of
the user. -/
structure Pwd (φ : Type) where
  cwd : ℕ
  arr : Rows
  p : ℕ
  user : Memory φ

variable {φ : Type} [DecidableEq φ] (vm : Vm φ) (turns pid : ℕ) (arr : Rows) (user : Memory φ)
  (kva : BitVec 32)

def sysPwd (cwd : Option ℕ) (eax : BitVec 32) : CacheM (Pwd φ) := do
  let cur ← workingDir cwd
  let parent ← parentOf devsw cur
  let (arr, len) ← pwdLoop devsw turns cur parent arr 0
  let (arr, p) := arr.join len 0
  return ⟨cur, arr, p, user.ptCopyout vm arr pid eax kva (BitVec.ofNat 32 (p + 1))⟩

/-- What the call is for: an absolute path of the working directory gets to the user's buffer, and
no reference is left. -/
def PwdInverts (cwd : ℕ) (userBuf : BitVec 32) (c : InodeCache) : Prop :=
  ∃ r c' path ip c'', sysPwd devsw vm turns pid arr user kva (some cwd) sysPwdNr c = .ok (r, c') ∧
    r.user = user.copyoutLoop vm (fun j => (path ++ [0]).getD j 0) pid userBuf
      (path.length + 1) ∧
    path.head? = some slash ∧ namei devsw (some cwd) path c' = .ok (some ip, c'') ∧
    (c''.inode ip).inum = (c.inode cwd).inum ∧ ∀ i, (c'.inode i).ref = (c.inode i).ref

theorem sysPwd_returns (cwd : Option ℕ) (c : InodeCache) : Returns (fun r _ => r.user = user)
    (sysPwd devsw vm turns pid arr user kva cwd sysPwdNr) c := by
  have hrefused (src : ℕ → Byte) (len : BitVec 32) :
      user.ptCopyout vm src pid sysPwdNr kva len = user :=
    if_neg fun haccepts => absurd haccepts.1 (by decide)
  refine Returns.bind (fun _ _ _ => trivial) fun cur _ _ => ?_
  refine Returns.bind (fun _ _ _ => trivial) fun parent _ _ => ?_
  refine Returns.bind (fun _ _ _ => trivial) fun rows _ _ => ?_
  refine Returns.pure ?_
  dsimp only
  exact hrefused _ _

/-- **The path of the working directory is never delivered**, whatever the tree, the working
directory and the buffer of the user are. -/
theorem pwd_never_inverts (cwd : ℕ) (userBuf : BitVec 32) (c : InodeCache) :
    ¬ PwdInverts devsw vm turns pid arr user kva cwd userBuf c := by
  rintro ⟨r, c', path, -, -, hok, huser, -⟩
  rw [sysPwd_returns devsw vm turns pid arr user kva (some cwd) c r c' hok] at huser
  have htouched := congrArg (fun m => m.touched.length) huser
  rw [Memory.copyoutLoop_touched, List.length_append, List.length_map, length_span] at htouched
  omega

end Model

def rootVisited : InodeCache := rootOpen.setInode 0 ⟨⟨rootDinode, 1, 1, false, true⟩, rootdev⟩

/-- In the root the text is empty, the user's memory is as before, and a second reference to the
root is left. -/
theorem pwd_of_root :
    ∃ r c', sysPwd (fun _ => ⟨none, none⟩) pagesVm 100 3 (fun _ => 7) zeroUser 0x100000 (some 0)
        sysPwdNr rootVisited = .ok (r, c') ∧ r.arr 0 = 0 ∧ r.user = zeroUser ∧
      (rootVisited.inode 0).ref = 1 ∧ (c'.inode 0).ref = 2 := by
  have hrun : ((sysPwd (fun _ => ⟨none, none⟩) pagesVm 100 3 (fun _ => 7) zeroUser 0x100000 (some 0)
      sysPwdNr rootVisited).toOption.map fun x => (x.1.arr 0, (x.2.inode 0).ref)) =
        some (0, 2) := by
    decide +kernel
  obtain ⟨⟨r, c'⟩, hsome, hvalues⟩ := Option.map_eq_some_iff.mp hrun
  have hok := eq_ok_of_toOption hsome
  exact ⟨r, c', hok, congrArg Prod.fst hvalues,
    sysPwd_returns _ _ _ _ _ _ _ _ _ r c' hok, rfl, congrArg Prod.snd hvalues⟩

end MCertikos.FS
