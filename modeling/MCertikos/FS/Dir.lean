/-
# Directories and paths on the inode cache

The functions of `dir.c` and `path.c`, and the two accesses that `sys_unlink` makes to a
directory, on the table of in-memory inodes.  Each runs to its end here; `Sysfile.Inode` and
`Sysfile.Calls` have the same functions cut into actions, with other processes in between.  Both
use one definition of entries, names and paths.  That their loops agree is not proved.
-/

import MCertikos.FS.Dirent
import MCertikos.FS.InodeCoherence

namespace MCertikos.FS

open Math InodeCache
open Sysfile (Byte Dirent dirNamecmp dirTurns direntSize dirsiz skipelem slash strncpy tDir)

section Model

variable (devsw : ℕ → Devsw)

/-! ## `dir.c` -/

def inodeRead (i : ℕ) (off n : BitVec 32) : CacheM (ℤ × List Byte) :=
  runInode i fun s ip =>
    (s.inodeRead devsw ip off n).map fun r => ((r.1, r.2.1), r.2.2)

def readDirent (dp off : ℕ) : CacheM Dirent := do
  let (r, data) ← inodeRead devsw dp (BitVec.ofNat 32 off) (BitVec.ofNat 32 direntSize)
  if r = direntSize then return Dirent.decode data else kernPanic .dirRead

/-- A loop over the entries of a directory up to the first one with the property: the entry and
its offset, or none and the offset of the end.  Offsets are 32-bit words, so it has at most `2 ^
28` turns. -/
def scanDir (dp : ℕ) (found : Dirent → Bool) : ℕ → ℕ → CacheM (Option Dirent × ℕ)
  | 0, _ => kernPanic .noEnd
  | fuel + 1, off => do
    let c ← get
    if off < (c.inode dp).size.toNat then
      let de ← readDirent devsw dp off
      if found de then return (some de, off)
      else scanDir dp found fuel (off + direntSize)
    else return (none, off)

def dirLookup (dp : ℕ) (name : List Byte) : CacheM (Option (ℕ × ℕ)) := do
  let c ← get
  if (c.inode dp).type = tDir then
    match ← scanDir devsw dp (fun de => de.inum ≠ 0 && dirNamecmp de.name name = 0) dirTurns 0 with
    | (some de, off) =>
      let ip ← inodeGet (c.inode dp).dev (de.inum.setWidth 32)
      return some (ip, off)
    | (none, _) => return none
  else kernPanic .notDir

def writeDirent (dp : ℕ) (de : Dirent) (off : ℕ) : CacheM Unit := do
  let r ← inodeWrite devsw dp (fun j => de.encode.getD j 0) (BitVec.ofNat 32 off)
    (BitVec.ofNat 32 direntSize)
  if r = direntSize then return () else kernPanic .dirWrite

def dirLink (dp : ℕ) (name : List Byte) (inum : BitVec 32) : CacheM Bool := do
  match ← dirLookup devsw dp name with
  | some (ip, _) =>
    inodePut ip
    return false
  | none =>
    let (_, off) ← scanDir devsw dp (fun de => de.inum = 0) dirTurns 0
    writeDirent devsw dp ⟨inum.setWidth 16, strncpy dirsiz name⟩ off
    return true

def clearDirent (dp off : ℕ) : CacheM Unit := writeDirent devsw dp ⟨0, []⟩ off

/-! ## `path.c` -/

def inodeUnlockput (i : ℕ) : CacheM Unit := do
  inodeUnlock i
  inodePut i

def namexLoop (parent : Bool) : ℕ → ℕ → List Byte → List Byte → CacheM (Option (ℕ × List Byte))
  | 0, _, _, _ => kernPanic .noEnd
  | fuel + 1, ip, path, name =>
    match skipelem path with
    | none =>
      if parent then do
        inodePut ip
        return none
      else return some (ip, name)
    | some (name, path) => do
      inodeLock ip
      let c ← get
      if (c.inode ip).type ≠ tDir then
        inodeUnlockput ip
        return none
      else if parent ∧ path = [] then
        inodeUnlock ip
        return some (ip, name)
      else
        match ← dirLookup devsw ip name with
        | none =>
          inodeUnlockput ip
          return none
        | some (subdir, _) =>
          inodeUnlockput ip
          namexLoop parent fuel subdir path name

def startInode (cwd : Option ℕ) (path : List Byte) : CacheM ℕ :=
  if path.head? = some slash then inodeGet rootdev 1
  else
    match cwd with
    | none => kernPanic .nullPointer
    | some ip => do
      inodeDup ip
      return ip

def namex (cwd : Option ℕ) (path : List Byte) (parent : Bool) :
    CacheM (Option (ℕ × List Byte)) := do
  let ip ← startInode cwd path
  namexLoop devsw parent (path.length + 1) ip path []

def namei (cwd : Option ℕ) (path : List Byte) : CacheM (Option ℕ) := do
  let r ← namex devsw cwd path false
  return r.map Prod.fst

end Model

/-! ## Slots and the inodes on the disk -/

namespace InodeCache

def dinodeOf (c : InodeCache) (i : ℕ) : Dinode := c.fs.dinode (c.inode i).inum.toNat

def withInode (c : InodeCache) (i : ℕ) (ip : Inode) (fs : Fs) : InodeCache :=
  { c with fs := fs }.setInode i { c.inode i with toInode := ip }

variable {g : Geometry} {c : InodeCache} {i : ℕ} {ip ip' : Inode} {fs fs' : Fs}

@[simp] theorem withInode_inode :
    (c.withInode i ip fs).inode i = { c.inode i with toInode := ip } := setInode_self

@[simp] theorem withInode_withInode :
    (c.withInode i ip fs).withInode i ip' fs' = c.withInode i ip' fs' := by
  rw [withInode, withInode_inode, withInode, setInode_setFs]
  rfl

theorem Inv.lockedInode_eq (h : c.Inv g) (hlive : c.Live i) :
    c.lockedInode i = { (c.inode i).toInode with
      toDinode := c.dinodeOf i, busy := true, valid := true } := by
  unfold lockedInode
  split
  · next hvalid =>
    rw [dinodeOf, (h.synced i hlive hvalid).dinode_eq]
    exact congrArg (fun valid => { (c.inode i).toInode with busy := true, valid := valid }) hvalid
  · rfl

theorem Inv.synced_locked (h : c.Inv g) (hlive : c.Live i) (htype : (c.dinodeOf i).type ≠ 0) :
    Synced g c.fs (c.lockedInode i) := by
  rw [h.lockedInode_eq hlive]
  exact ⟨h.inum_lt i hlive, rfl, htype⟩

end InodeCache

/-! ## Reading directories -/

def Fs.direntAt (s : Fs) (d : Dinode) (off : ℕ) : Dirent :=
  Dirent.decode ((List.range direntSize).map fun j => s.fileByte d (off + j))

def Stuck.Halts (fail : Halt → Prop) : Stuck → Prop
  | .halt reason => fail reason
  | _ => False

theorem not_pinned {c : InodeCache} (hempty : c.fs.log.sectors = ∅) (e : Stuck) :
    ¬ e.Halts (Pinned c.fs) := by
  intro he
  cases e with
  | halt reason =>
    have hfull := he.2
    rw [hempty] at hfull
    exact absurd hfull (by decide)
  | panic reason => exact he
  | sleep => exact he

/-- What can stop a call that only looks at a directory: all buffers are pinned, or no slot of
the inode cache is free. -/
def Unreadable (c : InodeCache) : Stuck → Prop
  | .halt reason => Pinned c.fs reason
  | .panic reason => reason = .noInodeSlot ∧ ∀ i < Sysfile.ninode, (c.inode i).ref ≠ 0
  | .sleep => False

structure Readable (c : InodeCache) (dp : ℕ) : Prop where
  type_eq : (c.inode dp).type = tDir
  whole : direntSize ∣ (c.inode dp).size.toNat
  shaped : Shaped (c.inode dp).toDinode c.fs.cache (fileSlots (c.inode dp).size.toNat)

def Dinode.entries (d : Dinode) : ℕ := d.size.toNat / direntSize

section Reading

variable {c : InodeCache} {dp off : ℕ} {devsw : ℕ → Devsw}

theorem Readable.size_le (h : Readable c dp) : (c.inode dp).size.toNat ≤ maxfile * bsize :=
  fileSlots_le.mp h.shaped.count_le

theorem Readable.size_eq (h : Readable c dp) :
    (c.inode dp).size.toNat = direntSize * (c.inode dp).entries :=
  (Nat.mul_div_cancel' h.whole).symm

variable {i : ℕ}

theorem runInode_of_same {α : Type} {f : Fs → Inode → Except Halt (α × Inode × Fs)}
    {fail : Halt → Prop} {value : α}
    (h : Meets fail (fun r => r = (value, (c.inode i).toInode, c.fs))
      (f c.fs (c.inode i).toInode)) :
    Meets (Stuck.Halts fail) (fun r => r = (value, c)) (runInode i f c) := by
  unfold runInode
  cases hf : f c.fs (c.inode i).toInode with
  | error e =>
    rw [hf] at h
    exact h
  | ok r =>
    rw [hf] at h
    obtain rfl : r = (value, (c.inode i).toInode, c.fs) := h
    have hsame : c.setInode i (c.inode i) = c := by simp [setInode]
    exact congrArg (value, ·) hsame

theorem runInode_meets {α : Type} {f : Fs → Inode → Except Halt (α × Inode × Fs)}
    {fail : Halt → Prop} {post : α × Inode × Fs → Prop}
    (h : Meets fail post (f c.fs (c.inode i).toInode)) :
    Meets (Stuck.Halts fail) (fun r => ∃ ip fs, post (r.1, ip, fs) ∧
      r.2 = { c with fs := fs }.setInode i { c.inode i with toInode := ip }) (runInode i f c) := by
  unfold runInode
  cases hf : f c.fs (c.inode i).toInode with
  | error e =>
    rw [hf] at h
    exact h
  | ok r =>
    rw [hf] at h
    exact ⟨r.2.1, r.2.2, h, rfl⟩

theorem Unreadable.of_pinned {e : Stuck} (h : Stuck.Halts (Pinned c.fs) e) : Unreadable c e := by
  cases e with
  | halt reason => exact h
  | _ => cases h

theorem readDirent_within {fin : ℕ} (htype : (c.inode dp).type = tDir)
    (hshaped : Shaped (c.inode dp).toDinode c.fs.cache (fileSlots fin))
    (hfin : off + direntSize ≤ fin) (hoff : off + direntSize ≤ (c.inode dp).size.toNat) :
    Meets (Unreadable c) (fun r => r = (c.fs.direntAt (c.inode dp).toDinode off, c))
      (readDirent devsw dp off c) := by
  have hmax : maxfile * bsize < 2 ^ 32 := by decide
  have hsize : fin ≤ maxfile * bsize := fileSlots_le.mp hshaped.count_le
  have hlt : off < 2 ^ 32 := by omega
  have hdev : (c.inode dp).type ≠ tDev := by
    rw [htype]
    decide
  have hlen : (BitVec.ofNat 32 direntSize).toNat = direntSize := rfl
  have hoff' : (BitVec.ofNat 32 off).toNat = off := by
    rw [BitVec.toNat_ofNat, Nat.mod_eq_of_lt hlt]
  have hread : Meets (Pinned c.fs)
      (fun r => r = (((direntSize : ℤ), (List.range direntSize).map fun j =>
        c.fs.fileByte (c.inode dp).toDinode (off + j)), (c.inode dp).toInode, c.fs))
      ((c.fs.inodeRead devsw (c.inode dp).toInode (BitVec.ofNat 32 off)
        (BitVec.ofNat 32 direntSize)).map fun r => ((r.1, r.2.1), r.2.2)) := by
    refine Meets.map ((inodeRead_within hshaped hdev (by rw [hoff', hlen]; exact hfin)
      (by rw [hoff', hlen]; exact hoff)).mono (fun _ h => h) ?_)
    rintro _ rfl
    rw [hoff', hlen]
    rfl
  refine Meets.bind_state ((runInode_of_same hread).mono (fun _ => .of_pinned) fun _ h => h) ?_
  rintro _ _ ⟨⟩
  rfl

theorem readDirent_meets (h : Readable c dp) (hoff : off + direntSize ≤ (c.inode dp).size.toNat) :
    Meets (Unreadable c) (fun r => r = (c.fs.direntAt (c.inode dp).toDinode off, c))
      (readDirent devsw dp off c) :=
  readDirent_within h.type_eq h.shaped hoff hoff

def Fs.scanned (s : Fs) (d : Dinode) (found : Dirent → Bool) (k : ℕ) : Option Dirent × ℕ :=
  match (List.range' k (d.entries - k)).find? fun i => found (s.direntAt d (direntSize * i)) with
  | some i => (some (s.direntAt d (direntSize * i)), direntSize * i)
  | none => (none, direntSize * d.entries)

variable {found : Dirent → Bool}

theorem Fs.scanned_of_eq {s : Fs} {d : Dinode} :
    s.scanned d found d.entries = (none, direntSize * d.entries) := by
  rw [scanned, Nat.sub_self, List.range'_zero, List.find?_nil]

theorem Dinode.range'_entries {d : Dinode} {k : ℕ} (hk : k < d.entries) :
    List.range' k (d.entries - k) = k :: List.range' (k + 1) (d.entries - (k + 1)) := by
  rw [← List.range'_succ, ← Nat.sub_sub, Nat.sub_add_cancel (Nat.sub_pos_of_lt hk)]

theorem Fs.scanned_of_lt {s : Fs} {d : Dinode} {k : ℕ} (hk : k < d.entries) :
    s.scanned d found k = if found (s.direntAt d (direntSize * k)) then
      (some (s.direntAt d (direntSize * k)), direntSize * k) else s.scanned d found (k + 1) := by
  rw [scanned, Dinode.range'_entries hk, List.find?_cons]
  cases hfound : found (s.direntAt d (direntSize * k)) with
  | true => rfl
  | false => rfl

theorem scanDir_meets (h : Readable c dp) (found : Dirent → Bool) (fuel k : ℕ)
    (hk : k ≤ (c.inode dp).entries) (hfuel : (c.inode dp).entries < k + fuel) : Meets (Unreadable c)
      (fun r => r = (c.fs.scanned (c.inode dp).toDinode found k, c))
      (scanDir devsw dp found fuel (direntSize * k) c) := by
  induction fuel generalizing k with
  | zero => omega
  | succ fuel ih =>
    have hsize := h.size_eq
    unfold scanDir
    apply Meets.get_bind
    obtain hlt | rfl := Nat.lt_or_eq_of_le hk
    · have hmul : direntSize * (k + 1) ≤ direntSize * (c.inode dp).entries :=
        Nat.mul_le_mul_left _ hlt
      have hpos : 0 < direntSize := by decide
      rw [Nat.mul_succ] at hmul
      rw [if_pos (by omega), Fs.scanned_of_lt hlt]
      refine Meets.bind_state (readDirent_meets h (by omega)) ?_
      rintro _ _ ⟨⟩
      cases found (c.fs.direntAt (c.inode dp).toDinode (direntSize * k)) with
      | true => exact rfl
      | false => exact ih (k + 1) hlt (by omega)
    · rw [if_neg (by omega), Fs.scanned_of_eq]
      rfl

/-! ## Looking up names -/

/-- What `inode_get` does: it takes one more reference to the inode in the cache, or a slot
that is not in use. -/
inductive Got (c : InodeCache) (dev inum : BitVec 32) (i : ℕ) : InodeCache → Prop
  | cached (live : c.Live i) (dev_eq : (c.inode i).dev = dev) (inum_eq : (c.inode i).inum = inum) :
      Got c dev inum i (c.setInode i { c.inode i with ref := (c.inode i).ref + 1 })
  | recycled (free : (c.inode i).ref = 0) :
      Got c dev inum i (c.setInode i { c.inode i with
        dev := dev, inum := inum, ref := 1, busy := false, valid := false })

theorem inodeGet_meets (c : InodeCache) (dev inum : BitVec 32) :
    Meets (Unreadable c) (fun r => Got c dev inum r.1 r.2) (inodeGet dev inum c) := by
  unfold inodeGet
  split
  · next i hfind =>
    have hfound := List.find?_some hfind
    simp only [Bool.and_eq_true, decide_eq_true_eq] at hfound
    exact .cached hfound.1.1 hfound.1.2 hfound.2
  · split
    · next i hfind =>
      have hfree := List.find?_some hfind
      exact .recycled (of_decide_eq_true hfree)
    · next hnone =>
      refine ⟨rfl, fun i hi => ?_⟩
      have hused := List.find?_eq_none.mp hnone i (List.mem_range.mpr hi)
      simpa using hused

theorem inodeLock_meets (hlive : c.Live i) (hidle : (c.inode i).busy = false)
    (htype : (c.inode i).valid = false → (c.fs.dinode (c.inode i).inum.toNat).type ≠ 0) :
    Meets (Stuck.Halts (Pinned c.fs))
      (fun r => r = ((), c.setInode i { c.inode i with toInode := c.lockedInode i }))
      (inodeLock i c) := by
  cases hvalid : (c.inode i).valid with
  | true =>
    rw [inodeLock_of_valid hlive hvalid hidle, lockedInode, if_pos hvalid]
    rfl
  | false =>
    have hload : Meets (Pinned c.fs)
        (fun r => r = ((), { (c.inode i).toInode with
          toDinode := c.fs.dinode (c.inode i).inum.toNat, busy := true, valid := true }, c.fs))
        (c.fs.inodeLoad { (c.inode i).toInode with busy := true }) := by
      refine Meets.bind (bufcacheRead_pinned _) ?_
      rintro _ rfl
      rfl
    have href : ¬ (c.inode i).ref < 1 := Int.not_lt.mpr hlive
    unfold inodeLock
    apply Meets.get_bind
    rw [if_neg href, hidle, if_neg Bool.false_ne_true]
    apply Meets.set_bind
    rw [hvalid, if_neg Bool.false_ne_true]
    have hrun := runInode_meets (c := c.setInode i { c.inode i with busy := true }) (i := i)
      (f := fun s ip => s.inodeLoad ip) (by rw [setInode_self]; exact hload)
    refine Meets.bind_state hrun ?_
    rintro _ _ ⟨ip, fs, hip, rfl⟩
    obtain ⟨rfl, rfl⟩ := Prod.mk.inj (Prod.mk.inj hip).2
    apply Meets.get_bind
    rw [setInode_self, if_neg (htype hvalid), lockedInode, hvalid,
      if_neg Bool.false_ne_true]
    refine congrArg ((), ·) (setInode_setFs.trans ?_)
    rw [setInode_self]

theorem inodeUnlock_of_busy (hlive : c.Live i) (hbusy : (c.inode i).busy = true) :
    inodeUnlock i c = .ok ((), c.setInode i { c.inode i with busy := false }) := by
  have hheld : ¬ ((c.inode i).busy = false ∨ (c.inode i).ref < 1) := by
    rw [hbusy]
    exact not_or.mpr ⟨Bool.noConfusion, Int.not_lt.mpr hlive⟩
  show (if _ then _ else _ : CacheM Unit) c = _
  rw [if_neg hheld]
  rfl

theorem inodePut_of_not_last
    (h : ¬ ((c.inode i).ref = 1 ∧ (c.inode i).valid = true ∧ (c.inode i).nlink = 0)) :
    inodePut i c = .ok ((), c.setInode i { c.inode i with ref := (c.inode i).ref - 1 }) := by
  have hput : c.fs.inodePut (c.inode i).toInode =
      .ok ({ (c.inode i).toInode with ref := (c.inode i).ref - 1 }, c.fs) := if_neg h
  unfold inodePut runInode
  simp only [hput, Except.map]

theorem inodeUnlockput_of_not_last (hlive : c.Live i) (hbusy : (c.inode i).busy = true)
    (h : ¬ ((c.inode i).ref = 1 ∧ (c.inode i).valid = true ∧ (c.inode i).nlink = 0)) :
    inodeUnlockput i c =
      .ok ((), c.setInode i { c.inode i with ref := (c.inode i).ref - 1, busy := false }) := by
  have hput := inodePut_of_not_last (c := c.setInode i { c.inode i with busy := false }) (i := i)
    (by rw [setInode_self]; exact h)
  rw [setInode_setInode, setInode_self] at hput
  unfold inodeUnlockput
  simp only [bind, StateT.bind, inodeUnlock_of_busy hlive hbusy, Except.bind]
  exact hput

structure SameLive (c c' : InodeCache) : Prop where
  fs_eq : c'.fs = c.fs
  inode_eq : ∀ i, c.Live i → c'.inode i = c.inode i
  live_iff : ∀ i, c'.Live i ↔ c.Live i

namespace Got

variable {dev inum : BitVec 32} {i : ℕ} {c' : InodeCache}

theorem fs_eq (h : Got c dev inum i c') : c'.fs = c.fs := by
  cases h <;> rfl

theorem inode (h : Got c dev inum i c') :
    c'.Live i ∧ (c'.inode i).dev = dev ∧ (c'.inode i).inum = inum := by
  cases h with
  | cached live dev_eq inum_eq =>
    rw [Live, setInode_self]
    exact ⟨Int.lt_add_one_of_le (Int.le_of_lt live), dev_eq, inum_eq⟩
  | recycled free =>
    rw [Live, setInode_self]
    exact ⟨Int.one_pos, rfl, rfl⟩

theorem kept (h : Got c dev inum i c') {j : ℕ} (hj : c.Live j) :
    ∃ ref, 0 < ref ∧ c'.inode j = { c.inode j with ref := ref } := by
  by_cases hji : j = i
  · subst hji
    cases h with
    | cached live dev_eq inum_eq =>
      exact ⟨_, Int.lt_add_one_of_le (Int.le_of_lt live), setInode_self⟩
    | recycled free =>
      rw [Live, free] at hj
      exact absurd hj (Int.lt_irrefl 0)
  · refine ⟨(c.inode j).ref, hj, ?_⟩
    cases h <;> exact setInode_of_ne hji

theorem inodePut (h : Got c dev inum i c') :
    ∃ c'', FS.inodePut i c' = .ok ((), c'') ∧ SameLive c c'' := by
  cases h with
  | cached live dev_eq inum_eq =>
    refine ⟨c, ?_, rfl, fun _ _ => rfl, fun _ => Iff.rfl⟩
    rw [inodePut_of_not_last, setInode_setInode, setInode_self]
    · simp [setInode]
    · rw [setInode_self]
      have hpos : 0 < (c.inode i).ref := live
      rintro ⟨hone, -⟩
      simp only at hone
      omega
  | recycled free =>
    refine ⟨_, inodePut_of_not_last ?_, rfl, fun j hj => ?_, fun j => ?_⟩
    · rw [setInode_self]
      rintro ⟨-, hvalid, -⟩
      cases hvalid
    · have hji : j ≠ i := by
        rintro rfl
        rw [Live, free] at hj
        exact Int.lt_irrefl 0 hj
      rw [setInode_of_ne hji, setInode_of_ne hji]
    · by_cases hji : j = i
      · subst hji
        rw [Live, Live, setInode_self,
          setInode_self, free]
        simp
      · rw [Live, setInode_of_ne hji, setInode_of_ne hji,
          Live]

end Got

end Reading

end MCertikos.FS
