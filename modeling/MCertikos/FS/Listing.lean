/-
# Listing a directory

`sys_ls` writes the names of the working directory one behind the other into the row of `sys_buf`
that belongs to the caller, and copies the row to the user.
-/

import Mathlib.Data.List.GetD
import MCertikos.FS.Path
import MCertikos.UserMem.Pmap

namespace MCertikos.FS

open Math UserMem Function
open Sysfile (Byte Dirent cstring dirTurns direntSize dirsiz slash strncpy tDir)

/-! ## `sys_ls` -/

def strnlen (s : List Byte) : ℕ → ℕ
  | 0 => 0
  | size + 1 => if s.headD 0 ≠ 0 then strnlen s.tail size + 1 else 0

@[ext]
structure Output where
  mem : ℤ → Byte
  bufP : ℤ

namespace Output

def put (o : Output) (bytes : List Byte) : Output where
  mem a :=
    if o.bufP ≤ a ∧ a < o.bufP + bytes.length then bytes.getD (a - o.bufP).toNat 0 else o.mem a
  bufP := o.bufP + bytes.length

def putName (o : Output) (beyond : List Byte) (de : Dirent) : Output :=
  let name := de.name ++ beyond
  (o.put (strncpy (strnlen name Pmm.pagesize) name)).put [0x20]

theorem put_nil (o : Output) : o.put [] = o := by
  refine Output.ext (funext fun a => ?_) (Int.add_zero _)
  refine if_neg ?_
  rw [List.length_nil]
  omega

theorem put_put (o : Output) (first second : List Byte) :
    (o.put first).put second = o.put (first ++ second) := by
  refine Output.ext (funext fun a => ?_) ?_
  · unfold put
    dsimp only
    rw [List.length_append]
    by_cases hin : o.bufP ≤ a ∧ a < o.bufP + (first.length + second.length : ℕ)
    · rw [if_pos hin]
      by_cases hfirst : a < o.bufP + first.length
      · rw [if_neg (by omega), if_pos ⟨hin.1, hfirst⟩, List.getD_append _ _ _ _ (by omega)]
      · rw [if_pos (by omega), List.getD_append_right _ _ _ _ (by omega)]
        congr 1
        omega
    · rw [if_neg hin, if_neg (by omega), if_neg (by omega)]
  · unfold put
    dsimp only
    rw [List.length_append]
    omega

end Output

def sysBufRow (pid : ℕ) : ℤ := pid * Pmm.pagesize

section Model

variable (devsw : ℕ → Devsw) (beyond : List Byte)

def lsLoop (dp : ℕ) : ℕ → ℕ → Output → CacheM Output
  | 0, _, _ => kernPanic .noEnd
  | fuel + 1, off, o => do
    let c ← get
    if off < (c.inode dp).size.toNat then
      let de ← readDirent devsw dp off
      if de.inum = 0 then lsLoop dp fuel (off + direntSize) o
      else lsLoop dp fuel (off + direntSize) (o.putName beyond de)
    else return o

def workingDir : Option ℕ → CacheM ℕ
  | some dp => return dp
  | none => inodeGet rootdev 1

/-- What `sys_ls` leaves: the working directory, `sys_buf`, the memory of the user, and the
length that it returns. -/
structure Listed (φ : Type) where
  cwd : ℕ
  mem : ℤ → Byte
  user : Memory φ
  len : BitVec 32

def listDir (dp : ℕ) (o : Output) : CacheM Output := do
  inodeLock dp
  let o ← lsLoop devsw beyond dp dirTurns 0 o
  inodeUnlock dp
  return o

def Output.copyout {φ : Type} [DecidableEq φ] (o : Output) (vm : Vm φ) (dp pid : ℕ)
    (user : Memory φ) (kva userBuf bufLen : BitVec 32) : Listed φ :=
  let mem := update o.mem (o.bufP - 1) 0
  let len := if o.bufP - sysBufRow pid < bufLen.toInt then BitVec.ofInt 32 (o.bufP - sysBufRow pid)
    else bufLen
  ⟨dp, mem, user.ptCopyout vm (fun j => mem (sysBufRow pid + j)) pid userBuf kva len, len⟩

/-- List the working directory.  The row of the caller is at `kva`; the user's buffer is
`userBuf`, of `bufLen` bytes. -/
def sysLs {φ : Type} [DecidableEq φ] (vm : Vm φ) (cwd : Option ℕ) (pid : ℕ) (mem : ℤ → Byte)
    (user : Memory φ) (kva userBuf bufLen : BitVec 32) : CacheM (Listed φ) := do
  let dp ← workingDir cwd
  let o ← listDir devsw beyond dp ⟨mem, sysBufRow pid⟩
  return o.copyout vm dp pid user kva userBuf bufLen

end Model

/-! ## The text -/

def Fs.namesFrom (s : Fs) (d : Dinode) (k : ℕ) : List (List Byte) :=
  (List.range' k (d.entries - k)).filterMap fun i => ((dirTable s d).slot i).map Prod.fst

def Fs.names (s : Fs) (d : Dinode) : List (List Byte) := s.namesFrom d 0

def spaced (names : List (List Byte)) : List Byte := names.flatMap fun name => name ++ [0x20]

theorem strncpy_strnlen (s : List Byte) (size : ℕ) :
    strncpy (strnlen s size) s = cstring (s.take size) := by
  induction size generalizing s with
  | zero => rfl
  | succ size ih =>
    rw [strnlen, cstring_take_succ]
    by_cases hs : s.headD 0 = 0
    · rw [if_neg (not_not_intro hs), if_pos hs]
      rfl
    · rw [if_pos hs, if_neg hs, strncpy, if_pos hs, ih]

theorem cstring_append {field : List Byte} (h : 0 ∈ field) (beyond : List Byte) :
    cstring (field ++ beyond) = cstring field := by
  induction field with
  | nil => cases h
  | cons a field ih =>
    rw [List.cons_append, cstring, cstring, List.takeWhile_cons, List.takeWhile_cons]
    by_cases ha : a = 0
    · simp [ha]
    · have hfield : 0 ∈ field := (List.mem_cons.mp h).resolve_left (Ne.symm ha)
      rw [if_pos (by simpa using ha), if_pos (by simpa using ha)]
      exact congrArg (a :: ·) (ih hfield)

theorem mem_of_length_cstring_lt {field : List Byte} (h : (cstring field).length < field.length) :
    0 ∈ field := by
  by_contra hnot
  have hall : cstring field = field := by
    rw [cstring, List.takeWhile_eq_self_iff]
    intro a ha
    rw [decide_eq_true_iff]
    rintro rfl
    exact hnot ha
  rw [hall] at h
  exact Nat.lt_irrefl _ h

theorem Output.putName_eq (o : Output) (beyond : List Byte) {de : Dirent}
    (hfield : de.name.length = dirsiz) (hname : (cstring de.name).length < dirsiz) :
    o.putName beyond de = o.put (cstring de.name ++ [0x20]) := by
  have htake : (de.name ++ beyond).take Pmm.pagesize =
      de.name ++ beyond.take (Pmm.pagesize - dirsiz) := by
    rw [List.take_append, hfield, List.take_of_length_le (by rw [hfield]; decide)]
  have hnull : 0 ∈ de.name := mem_of_length_cstring_lt (by rw [hfield]; exact hname)
  unfold putName
  dsimp only
  rw [strncpy_strnlen, htake, cstring_append hnull, put_put]

section Loop

variable {c : InodeCache} {dp : ℕ} {s : Fs} {d : Dinode} {k : ℕ}

theorem namesFrom_of_eq : s.namesFrom d d.entries = [] := by
  rw [Fs.namesFrom, Nat.sub_self]
  rfl

theorem namesFrom_of_lt (hk : k < d.entries) :
    s.namesFrom d k = (((dirTable s d).slot k).map Prod.fst).toList ++ s.namesFrom d (k + 1) := by
  rw [Fs.namesFrom, Dinode.range'_entries hk, List.filterMap_cons]
  cases ((dirTable s d).slot k).map Prod.fst <;> rfl

theorem length_name_direntAt (off : ℕ) : (s.direntAt d off).name.length = dirsiz := by
  simp [Fs.direntAt, Dirent.decode, direntSize, dirsiz]

/-- **The loop over the entries** writes the names that are left, and changes nothing else. -/
theorem lsLoop_meets (devsw : ℕ → Devsw) (h : Readable c dp) (beyond : List Byte)
    (fuel k : ℕ) (o : Output) (hk : k ≤ (c.inode dp).entries)
    (hfuel : (c.inode dp).entries < k + fuel)
    (hnames : ∀ name ∈ c.fs.namesFrom (c.inode dp).toDinode k, name.length < dirsiz) :
    Meets (Unreadable c) (fun r => r = (o.put (spaced (c.fs.namesFrom (c.inode dp).toDinode k)), c))
      (lsLoop devsw beyond dp fuel (direntSize * k) o c) := by
  induction fuel generalizing k o with
  | zero => omega
  | succ fuel ih =>
    have hsize := h.size_eq
    unfold lsLoop
    apply Meets.get_bind
    obtain hlt | rfl := Nat.lt_or_eq_of_le hk
    · have hmul : direntSize * (k + 1) ≤ direntSize * (c.inode dp).entries :=
        Nat.mul_le_mul_left _ hlt
      have hpos : 0 < direntSize := by decide
      rw [Nat.mul_succ] at hmul
      rw [if_pos (by omega)]
      refine Meets.bind_state (readDirent_meets h (by omega)) ?_
      rintro _ _ ⟨⟩
      rw [namesFrom_of_lt hlt, slot_dirTable hlt, Dirent.binding] at hnames ⊢
      split
      · next hfree =>
        rw [if_pos hfree] at hnames
        exact ih (k + 1) o hlt (by omega) hnames
      · next hused =>
        rw [if_neg hused] at hnames
        have hname := hnames _ (List.mem_append_left _ (List.mem_singleton_self _))
        rw [Output.putName_eq o beyond (length_name_direntAt _) hname]
        have hrest := ih (k + 1) (o.put (cstring (c.fs.direntAt (c.inode dp).toDinode
          (direntSize * k)).name ++ [0x20])) hlt (by omega)
          fun name hmem => hnames name (List.mem_append_right _ hmem)
        rw [Output.put_put] at hrest
        exact hrest
    · rw [if_neg (by omega), namesFrom_of_eq]
      exact congrArg (·, c) o.put_nil.symm

variable {g : Geometry} {c' : InodeCache} {held : ℕ → ℤ} {inum : ℕ}

theorem listDir_meets (devsw : ℕ → Devsw) (ht : Tree g c) (beyond : List Byte) (o : Output)
    (h : Borrowed g c held none c') (hheld : ∀ j, j ≠ dp → held j = 0) (hlive : c'.Live dp)
    (hinum : (c'.inode dp).inum.toNat = inum) (halloc : InodeAllocated g c.fs inum)
    (htype : (c.fs.dinode inum).type = tDir)
    (hnames : ∀ name ∈ c.fs.names (c.fs.dinode inum), name.length < dirsiz) : Meets (Exhausted c)
      (fun r => r.1 = o.put (spaced (c.fs.names (c.fs.dinode inum))) ∧
        Borrowed g c held none r.2)
      (listDir devsw beyond dp o c') := by
  obtain rfl := hinum
  refine Meets.bind_state ((h.lock hlive halloc).mono (fun _ => .of_halts) fun _ hr => hr) ?_
  rintro ⟨⟩ c₁ ⟨hlocked, hslot⟩
  have hdinode : (c₁.inode dp).toDinode = c.fs.dinode (c'.inode dp).inum.toNat := by rw [hslot]
  have hlive' : c₁.Live dp := by
    rw [InodeCache.Live, hslot]
    exact hlive
  have hread : Readable c₁ dp := by
    refine ⟨?_, ?_, ?_⟩
    · rw [hdinode]
      exact htype
    · rw [hdinode]
      exact ht.whole _ halloc htype
    · rw [hdinode, hlocked.fs_eq]
      exact ht.inv.consistent.shaped _ halloc
  rw [Fs.names, ← hdinode, ← hlocked.fs_eq] at hnames ⊢
  have hloop := lsLoop_meets devsw hread beyond dirTurns 0 o (Nat.zero_le _)
    (by rw [Nat.zero_add]; exact hread.entries_lt) hnames
  refine Meets.bind_state (hloop.mono (fun _ => .of_unreadable hlocked hheld) fun _ hr => hr) ?_
  rintro _ _ ⟨⟩
  obtain ⟨c₂, hok, hdone, -⟩ := hlocked.unlock hlive'
  refine Meets.bind_of_ok hok ?_
  exact ⟨rfl, hdone⟩

def WorksIn (g : Geometry) (c : InodeCache) (cwd : Option ℕ) (inum : ℕ) : Prop :=
  cwd.elim (inum = rootInum) fun dp =>
    c.Live dp ∧ (c.inode dp).inum.toNat = inum ∧ InodeAllocated g c.fs inum

/-- The reference that `sys_ls` keeps: the one to the root, if the working directory was not
set. -/
def taken (cwd : Option ℕ) (dp : ℕ) : ℕ → ℤ := cwd.elim (one dp) fun _ _ => 0

theorem taken_of_ne (cwd : Option ℕ) {j : ℕ} (hj : j ≠ dp) : taken cwd dp j = 0 := by
  cases cwd with
  | none => exact one_of_ne hj
  | some _ => rfl

theorem workingDir_meets (ht : Tree g c) {cwd : Option ℕ} (hcwd : WorksIn g c cwd inum) :
    Meets (Exhausted c)
      (fun r => Borrowed g c (taken cwd r.1) none r.2 ∧ r.2.Live r.1 ∧
        (r.2.inode r.1).inum.toNat = inum ∧ InodeAllocated g c.fs inum)
      (workingDir cwd c) := by
  have hborrowed := Borrowed.start ht.inv ht.unlocked
  cases cwd with
  | none =>
    have hstart : Starts g c none [slash] inum := hcwd
    have hget : Meets (Exhausted c) (fun r => Walk g c r.1 inum r.2) (workingDir none c) :=
      startInode_meets ht hstart
    refine hget.mono (fun _ he => he) fun r hr => ?_
    exact ⟨hr.borrowed, hr.live, hr.inum_eq, hr.linked.allocated⟩
  | some dp =>
    obtain ⟨hlive, hinum, halloc⟩ := hcwd
    exact ⟨hborrowed, hlive, hinum, halloc⟩

/-- **`sys_ls` as a whole**, for a text of any length: it writes the names in use at the
beginning of the row and copies them. -/
theorem sysLs_meets {φ : Type} [DecidableEq φ] (devsw : ℕ → Devsw) (beyond : List Byte)
    (vm : Vm φ) (ht : Tree g c) {cwd : Option ℕ} (pid : ℕ) (mem : ℤ → Byte)
    (user : Memory φ) (kva userBuf bufLen : BitVec 32) (hcwd : WorksIn g c cwd inum)
    (htype : (c.fs.dinode inum).type = tDir)
    (hnames : ∀ name ∈ c.fs.names (c.fs.dinode inum), name.length < dirsiz) : Meets (Exhausted c)
      (fun r => ∃ dp, Borrowed g c (taken cwd dp) none r.2 ∧
        r.1 = ((⟨mem, sysBufRow pid⟩ : Output).put
          (spaced (c.fs.names (c.fs.dinode inum)))).copyout vm dp pid user kva userBuf bufLen)
      (sysLs devsw beyond vm cwd pid mem user kva userBuf bufLen c) := by
  refine Meets.bind_state (workingDir_meets ht hcwd) ?_
  rintro dp c₁ ⟨hborrowed, hlive, hinum, halloc⟩
  refine Meets.bind_state (listDir_meets devsw ht beyond ⟨mem, sysBufRow pid⟩ hborrowed
    (fun j hj => taken_of_ne cwd hj) hlive hinum halloc htype hnames) ?_
  rintro _ c₂ ⟨rfl, hdone⟩
  exact ⟨dp, hdone, rfl⟩

end Loop

/-! ## The row of the caller -/

def listing (names : List (List Byte)) : List Byte := List.intercalate [0x20] names ++ [0]

variable {names : List (List Byte)}

theorem spaced_eq (hsome : names ≠ []) :
    spaced names = List.intercalate [0x20] names ++ [0x20] := by
  induction names with
  | nil => exact absurd rfl hsome
  | cons name names ih =>
    cases names with
    | nil => simp [spaced, List.intercalate]
    | cons next names =>
      have hrest := ih (List.cons_ne_nil next names)
      rw [List.intercalate_cons_cons, List.append_assoc, ← hrest]
      rfl

theorem length_spaced (hsome : names ≠ []) : (spaced names).length = (listing names).length := by
  rw [spaced_eq hsome, listing, List.length_append, List.length_append]
  rfl

namespace Output

theorem put_mem_of_not (o : Output) {bytes : List Byte} {a : ℤ}
    (ha : ¬ (o.bufP ≤ a ∧ a < o.bufP + bytes.length)) : (o.put bytes).mem a = o.mem a := if_neg ha

theorem put_mem_add (o : Output) {bytes : List Byte} {j : ℕ} (hj : j < bytes.length) :
    (o.put bytes).mem (o.bufP + j) = bytes.getD j 0 := by
  have hindex : (o.bufP + j - o.bufP).toNat = j := by omega
  refine (if_pos ⟨by omega, by omega⟩).trans ?_
  rw [hindex]

theorem put_singleton (o : Output) (x : Byte) : (o.put [x]).mem = update o.mem o.bufP x := by
  funext a
  rw [update_apply]
  by_cases ha : a = o.bufP
  · rw [if_pos ha, ha]
    exact (congrArg _ (Int.add_zero _).symm).trans (o.put_mem_add Nat.one_pos)
  · rw [if_neg ha, put_mem_of_not]
    rw [List.length_singleton]
    omega

theorem update_last (o : Output) (body : List Byte) (x y : Byte) :
    update (o.put (body ++ [x])).mem ((o.put (body ++ [x])).bufP - 1) y =
      (o.put (body ++ [y])).mem := by
  have hcursor : (o.put (body ++ [x])).bufP - 1 = (o.put body).bufP := by
    show o.bufP + ((body ++ [x]).length : ℕ) - 1 = o.bufP + (body.length : ℕ)
    rw [List.length_append, List.length_singleton]
    omega
  rw [hcursor, ← put_put, ← put_put, put_singleton, put_singleton, update_idem]

end Output

section Row

variable {φ : Type} [DecidableEq φ] {names : List (List Byte)}

theorem mem_copyout (hsome : names ≠ []) (o : Output) (vm : Vm φ) (dp pid : ℕ) (user : Memory φ)
    (kva userBuf bufLen : BitVec 32) :
    ((o.put (spaced names)).copyout vm dp pid user kva userBuf bufLen).mem =
      (o.put (listing names)).mem := by
  rw [spaced_eq hsome]
  exact o.update_last _ _ _

theorem len_copyout (mem : ℤ → Byte) (vm : Vm φ) (dp pid : ℕ) (user : Memory φ)
    (kva userBuf : BitVec 32) {bufLen : BitVec 32} (text : List Byte) (hlen : 0 ≤ bufLen.toInt) :
    (((⟨mem, sysBufRow pid⟩ : Output).put text).copyout vm dp pid user kva userBuf
      bufLen).len.toNat = min text.length bufLen.toNat := by
  have hnat : bufLen.toInt = bufLen.toNat := by
    rw [BitVec.toInt_eq_toNat_cond] at hlen ⊢
    have := bufLen.isLt
    split at hlen <;> rename_i hcond
    · rw [if_pos hcond]
    · omega
  have hcursor : sysBufRow pid + text.length - sysBufRow pid = text.length := by omega
  unfold Output.copyout Output.put
  dsimp only
  rw [hcursor, hnat]
  split
  · next hlt =>
    rw [BitVec.ofInt_natCast, BitVec.toNat_ofNat, Nat.mod_eq_of_lt (by omega)]
    omega
  · omega

variable {g : Geometry} {c : InodeCache} {inum : ℕ}

/-- The row of the caller holds the names with spaces between them and a null byte at the end, cut
to the length of the user's buffer, and nothing outside the row has changed. -/
structure InRow (names : List (List Byte)) (pid : ℕ) (mem : ℤ → Byte) (bufLen : BitVec 32)
    (r : Listed φ) : Prop where
  outside : ∀ a, ¬ (sysBufRow pid ≤ a ∧ a < sysBufRow pid + Pmm.pagesize) → r.mem a = mem a
  len_eq : r.len.toNat = min (listing names).length bufLen.toNat
  text : ∀ j < r.len.toNat, r.mem (sysBufRow pid + j) = (listing names).getD j 0

theorem InRow.of_copyout (hsome : names ≠ []) (hfits : (listing names).length ≤ Pmm.pagesize)
    (vm : Vm φ) (dp pid : ℕ) (mem : ℤ → Byte) (user : Memory φ) (kva userBuf : BitVec 32)
    {bufLen : BitVec 32} (hlen : 0 ≤ bufLen.toInt) : InRow names pid mem bufLen
      (((⟨mem, sysBufRow pid⟩ : Output).put (spaced names)).copyout vm dp pid user kva userBuf
        bufLen) := by
  have hlength := len_copyout mem vm dp pid user kva userBuf (spaced names) hlen
  rw [length_spaced hsome] at hlength
  refine ⟨fun a ha => ?_, hlength, fun j hj => ?_⟩
  · rw [mem_copyout hsome, Output.put_mem_of_not]
    dsimp only
    omega
  · rw [mem_copyout hsome]
    exact Output.put_mem_add ⟨mem, sysBufRow pid⟩ (by omega)

/-- A text that does not fit changes the first byte behind the row, unless it was there before,
and a negative length is not cut. -/
theorem fits_of_inRow (hsome : names ≠ []) (vm : Vm φ) (dp pid : ℕ) {mem : ℤ → Byte}
    (user : Memory φ) (kva userBuf : BitVec 32) {bufLen : BitVec 32}
    (hmem : mem (sysBufRow pid + Pmm.pagesize) ≠ (listing names).getD Pmm.pagesize 0)
    (h : InRow names pid mem bufLen (((⟨mem, sysBufRow pid⟩ : Output).put (spaced names)).copyout vm
      dp pid user kva userBuf bufLen)) :
    (listing names).length ≤ Pmm.pagesize ∧ 0 ≤ bufLen.toInt := by
  have hfits : (listing names).length ≤ Pmm.pagesize := by
    by_contra hlong
    have hkept := h.outside (sysBufRow pid + Pmm.pagesize) (by omega)
    rw [mem_copyout hsome] at hkept
    exact hmem (hkept.symm.trans
      (Output.put_mem_add ⟨mem, sysBufRow pid⟩ (Nat.lt_of_not_le hlong)))
  refine ⟨hfits, ?_⟩
  by_contra hneg
  have hlen := h.len_eq
  have hcursor : sysBufRow pid + (spaced names).length - sysBufRow pid = (spaced names).length := by
    omega
  have hnot : ¬ sysBufRow pid + (spaced names).length - sysBufRow pid < bufLen.toInt := by omega
  rw [show Listed.len _ = bufLen from if_neg hnot] at hlen
  rw [BitVec.toInt_eq_toNat_cond] at hneg
  unfold Pmm.pagesize at hfits
  split at hneg <;> omega

/-- **A listing stays in the row of the caller exactly if it fits.** Let the names of the working
directory have at most 13 characters.  If they fit a page together and the length of the user's
buffer is not negative, the call writes them to the row and nothing else, and a user whose buffer
lies in the window of user addresses sees them.  It stops only if all buffers are pinned or the
inode cache has one free slot at most.  If it does not stop, and keeps to the row whatever
`sys_buf` held before, the names fit and the length is not negative. -/
theorem listing_stays_in_row (devsw : ℕ → Devsw) (beyond : List Byte) (vm : Vm φ)
    (ht : Tree g c) {cwd : Option ℕ} (hcwd : WorksIn g c cwd inum)
    (htype : (c.fs.dinode inum).type = tDir) (hlist : c.fs.names (c.fs.dinode inum) = names)
    (hnames : ∀ name ∈ names, name.length < dirsiz) (hsome : names ≠ [])
    (pid : ℕ) (user : Memory φ) (kva userBuf bufLen : BitVec 32) (hvm : vm.OwnPages)
    (hkva : kva.toNat + Pmm.pagesize ≤ vmUserhi.toNat) :
    ((listing names).length ≤ Pmm.pagesize → 0 ≤ bufLen.toInt → ∀ mem, Meets (Exhausted c)
      (fun r => InRow names pid mem bufLen r.1 ∧
        (vmUserlo.toNat ≤ userBuf.toNat → userBuf.toNat + r.1.len.toNat ≤ vmUserhi.toNat →
          ∀ j < r.1.len.toNat, r.1.user.byteAt vm pid (userBuf + BitVec.ofNat 32 j) =
            (listing names).getD j 0))
      (sysLs devsw beyond vm cwd pid mem user kva userBuf bufLen c)) ∧
    ((∀ e, ¬ Exhausted c e) →
      (∀ mem r, sysLs devsw beyond vm cwd pid mem user kva userBuf bufLen c = .ok r →
        InRow names pid mem bufLen r.1) →
      (listing names).length ≤ Pmm.pagesize ∧ 0 ≤ bufLen.toInt) := by
  obtain rfl := hlist
  have hmeets := fun mem => sysLs_meets devsw beyond vm ht pid mem user kva userBuf bufLen hcwd
    htype hnames
  refine ⟨fun hfits hlen mem => (hmeets mem).mono (fun _ he => he) ?_, fun hroom hrow => ?_⟩
  · rintro ⟨_, c'⟩ ⟨dp, -, rfl⟩
    have hin := InRow.of_copyout hsome hfits vm dp pid mem user kva userBuf hlen
    refine ⟨hin, fun hlo hhi j hj => ?_⟩
    have hle : _ ≤ Pmm.pagesize := hin.len_eq.trans_le ((Nat.min_le_left _ _).trans hfits)
    exact (Memory.ptCopyout_byteAt hvm hlo hhi ((Nat.add_le_add_left hle _).trans hkva) hj).trans
      (hin.text j hj)
  · let mem : ℤ → Byte := fun _ => (listing (c.fs.names (c.fs.dinode inum))).getD Pmm.pagesize 0 + 1
    obtain ⟨⟨_, c'⟩, hok, dp, -, rfl⟩ := (hmeets mem).exists_ok hroom
    refine fits_of_inRow hsome vm dp pid user kva userBuf ?_ (hrow mem _ hok)
    show _ + 1 ≠ _
    simp

end Row

theorem listing_stays_in_row_of_root :
    ∃ r, sysLs (fun _ => ⟨none, none⟩) [] (⟨Prod.mk⟩ : Vm (ℕ × ℕ)) none 3 (fun _ => 7)
        ⟨fun _ _ => false, fun _ _ => 0, []⟩ 0x100000 0x40000000 8 (InodeCache.boot rootFs) =
          .ok r ∧
      r.1.len.toNat = 5 ∧ r.1.mem (sysBufRow 4) = 7 ∧
      ∀ j < 5, r.1.user.byteAt ⟨Prod.mk⟩ 3 (0x40000000 + BitVec.ofNat 32 j) =
        [0x2e, 0x20, 0x2e, 0x2e, 0].getD j 0 := by
  have hdinode : rootFs.dinode 1 = rootDinode := Dinode.decode_encode (by decide)
  have hnames : (InodeCache.boot rootFs).fs.names ((InodeCache.boot rootFs).fs.dinode 1) =
      [[0x2e], [0x2e, 0x2e]] := by
    rw [show (InodeCache.boot rootFs).fs.dinode 1 = rootDinode from hdinode]
    decide +kernel
  have hcwd : WorksIn tightGeometry (InodeCache.boot rootFs) none 1 := rfl
  have hlist := (listing_stays_in_row (fun _ => ⟨none, none⟩) [] (⟨Prod.mk⟩ : Vm (ℕ × ℕ))
    tree_rootFs hcwd (by decide +kernel) hnames (by decide) (by decide) 3
    ⟨fun _ _ => false, fun _ _ => 0, []⟩ 0x100000 0x40000000 8
    (fun _ _ _ _ _ _ hframe => Prod.mk.inj hframe) (by decide)).1 (by decide) (by decide)
    fun _ => 7
  obtain ⟨r, hok, hrow, huser⟩ := hlist.exists_ok (not_exhausted_boot (by decide))
  have hfive : r.1.len.toNat = 5 := hrow.len_eq
  refine ⟨r, hok, hfive, hrow.outside _ (by decide), fun j hj => ?_⟩
  exact huser (by decide) (by rw [hfive]; decide) j (by omega)

/-! ## A directory with many links -/

def linkName (k : ℕ) : List Byte :=
  if k = 0 then [0x2e]
  else if k = 1 then [0x2e, 0x2e]
  else List.replicate 10 0x61 ++
    [BitVec.ofNat 8 (0x30 + k / 100), BitVec.ofNat 8 (0x30 + k / 10 % 10),
      BitVec.ofNat 8 (0x30 + k % 10)]

def linkEntry (k : ℕ) : Dirent := ⟨if k < 2 then 1 else 2, strncpy dirsiz (linkName k)⟩

def linksDinode : Dinode := ⟨1, 0, 0, 1, 4720, 
  fun j => if j.val < 10 then BitVec.ofNat 32 (5 + j.val) else 0⟩

def linkedFile : Dinode := ⟨2, 0, 0, 293, 0, fun _ => 0⟩

def linksBlock (p : ℕ) : Block := fun j =>
  (linkEntry ((bsize * p + j) / direntSize)).encode.getD (j % direntSize) 0

def linksFs : Fs where
  cache sector :=
    if sector = 1 then Superblock.encode ⟨32, 17, 8, 10⟩
    else if sector = 2 then linkedFile.encode (linksDinode.encode (fun _ => 0) 1) 2
    else if sector = 4 then balloc 15
    else if 5 ≤ sector.toNat ∧ sector.toNat < 15 then linksBlock (sector.toNat - 5)
    else fun _ => 0
  log := Log.boot smallGeometry.region

theorem dinode_linksFs : linksFs.dinode 1 = linksDinode ∧ linksFs.dinode 2 = linkedFile := by
  constructor
  · exact (Dinode.decode_encode_of_ne (by decide)).trans (Dinode.decode_encode (by decide))
  · exact Dinode.decode_encode (by decide)

theorem allocated_linksFs {i : ℕ} : InodeAllocated smallGeometry linksFs i ↔ i = 1 ∨ i = 2 := by
  have hall : ∀ i < 8, (linksFs.dinode i).type ≠ 0 ↔ i = 1 ∨ i = 2 := by decide +kernel
  constructor
  · rintro ⟨hi, htype⟩
    exact (hall i hi).mp htype
  · intro h
    have hi : i < 8 := by omega
    exact ⟨hi, (hall i hi).mpr h⟩

theorem consistent_linksFs : Consistent smallGeometry linksFs :=
  consistent_of_check 1 10 (Superblock.decode_encode _) ⟨rfl, rfl, rfl⟩ rfl rfl (by decide +kernel)
    (by decide) (by decide) (by decide +kernel) (fun _ => allocated_linksFs.mpr (Or.inl rfl))
    (by decide +kernel) (by decide +kernel)

theorem cache_linksFs {p : ℕ} (hp : p < 10) :
    linksFs.cache (BitVec.ofNat 32 (5 + p)) = linksBlock p := by
  have htoNat : (BitVec.ofNat 32 (5 + p)).toNat = 5 + p := by
    rw [BitVec.toNat_ofNat, Nat.mod_eq_of_lt (by omega)]
  have hne : ∀ x : BitVec 32, x.toNat < 5 → BitVec.ofNat 32 (5 + p) ≠ x := by
    rintro _ hx rfl
    omega
  unfold linksFs
  dsimp only
  rw [if_neg (hne 1 (by decide)), if_neg (hne 2 (by decide)), if_neg (hne 4 (by decide)),
    if_pos (by omega), htoNat, Nat.add_sub_cancel_left]

theorem direntAt_linksFs {k : ℕ} (hk : k < 295) :
    linksFs.direntAt linksDinode (direntSize * k) = Dirent.decode (linkEntry k).encode := by
  have hblock : ∀ p < 10, linksFs.cache (linksDinode.blockAt linksFs.cache p) = linksBlock p := by
    intro p hp
    have haddr : ∀ p < 10, linksDinode.addr p = BitVec.ofNat 32 (5 + p) := by decide
    rw [Dinode.blockAt_of_lt (Nat.lt_trans hp (by decide)), haddr p hp, cache_linksFs hp]
  have hbyte : ∀ j < direntSize, linksFs.fileByte linksDinode (direntSize * k + j) =
      (linkEntry k).encode.getD j 0 := by
    intro j hj
    unfold direntSize at hj ⊢
    have hp : (16 * k + j) / bsize < 10 := by
      unfold bsize
      omega
    have hlt : (16 * k + j) % bsize < bsize := Nat.mod_lt _ (by decide)
    have hindex : (bsize * ((16 * k + j) / bsize) + (16 * k + j) % bsize) / 16 = k := by
      rw [Nat.div_add_mod]
      omega
    have hrest : (16 * k + j) % bsize % 16 = j := by
      unfold bsize
      omega
    rw [Fs.fileByte, hblock _ hp, Bytes.byte, dif_pos hlt]
    unfold linksBlock
    dsimp only
    unfold direntSize
    rw [hindex, hrest]
  rw [Fs.direntAt, List.map_congr_left fun j hj => hbyte j (List.mem_range.mp hj),
    map_getD_encode]

theorem nameOk_linkName {k : ℕ} (hk : k < 295) :
    NameOk dirsiz (linkName k) ∧ (linkName k).length < dirsiz := by
  have hall : ∀ k < 295, 0 < (linkName k).length ∧ (linkName k).length < dirsiz ∧
      0 ∉ linkName k := by decide +kernel
  obtain ⟨hpos, hlt, hnull⟩ := hall k hk
  exact ⟨⟨hpos, Nat.le_of_lt hlt, hnull⟩, hlt⟩

theorem slot_linksFs {k : ℕ} (hk : k < 295) :
    (dirTable linksFs linksDinode).slot k = some (linkName k, if k < 2 then 1 else 2) := by
  have hentries : linksDinode.entries = 295 := by decide
  rw [slot_dirTable (hentries ▸ hk), direntAt_linksFs hk, linkEntry]
  refine Dirent.binding_decode_encode (nameOk_linkName hk).1 ?_
  split <;> decide

theorem names_linksFs : linksFs.names linksDinode = (List.range 295).map linkName := by
  have hentries : linksDinode.entries = 295 := by decide
  rw [Fs.names, Fs.namesFrom, hentries, Nat.sub_zero, ← List.range_eq_range']
  rw [← List.filterMap_eq_map]
  refine List.filterMap_congr fun k hk => ?_
  rw [slot_linksFs (List.mem_range.mp hk)]
  rfl

theorem linked_linksFs {i : ℕ} (hi : i = 1 ∨ i = 2) :
    Linked smallGeometry (InodeCache.boot linksFs) i := by
  refine ⟨allocated_linksFs.mpr hi, Or.inl ?_⟩
  obtain rfl | rfl := hi
  · rw [show (InodeCache.boot linksFs).fs.dinode 1 = linksDinode from dinode_linksFs.1]
    decide
  · rw [show (InodeCache.boot linksFs).fs.dinode 2 = linkedFile from dinode_linksFs.2]
    decide

theorem tree_linksFs : Tree smallGeometry (InodeCache.boot linksFs) := by
  have hroot : ∀ i, InodeAllocated smallGeometry linksFs i → (linksFs.dinode i).type = tDir →
      linksFs.dinode i = linksDinode := by
    intro i hi htype
    obtain rfl | rfl := allocated_linksFs.mp hi
    · exact dinode_linksFs.1
    · rw [dinode_linksFs.2] at htype
      exact absurd htype (by decide)
  refine ⟨InodeCache.inv_boot consistent_linksFs, fun i hi => absurd hi (Int.lt_irrefl 0),
    linked_linksFs (Or.inl rfl), fun i hi htype => ?_, fun i hi htype name inum hlookup => ?_⟩
  · rw [show (InodeCache.boot linksFs).fs.dinode i = linksDinode from hroot i hi htype]
    decide
  · rw [show (InodeCache.boot linksFs).fs.dinode i = linksDinode from hroot i hi htype] at hlookup
    obtain ⟨k, hindex, hslot⟩ := Option.bind_eq_some_iff.mp hlookup
    obtain ⟨hk, -⟩ := SlotTable.index_eq_some hindex
    rw [show (InodeCache.boot linksFs).fs = linksFs from rfl, slot_linksFs hk,
      Option.map_some, Option.some.injEq] at hslot
    apply linked_linksFs
    rw [← hslot]
    split
    · exact Or.inl rfl
    · exact Or.inr rfl

def linkIndex (name : List Byte) : ℕ :=
  if name = [0x2e] then 0
  else if name = [0x2e, 0x2e] then 1
  else (name.drop 10).foldl (fun n digit => 10 * n + (digit.toNat - 0x30)) 0

theorem nodup_linkNames : ((List.range 295).map linkName).Nodup := by
  have hindex : ∀ k < 295, linkIndex (linkName k) = k := by decide +kernel
  refine List.nodup_range.map_on fun i hi j hj heq => ?_
  rw [← hindex i (List.mem_range.mp hi), heq, hindex j (List.mem_range.mp hj)]

/-- **The listing of a directory with 293 links of 13 characters** has 4107 bytes, so that
process 0 writes to the row of process 1. -/
theorem listing_leaves_row : Tree smallGeometry (InodeCache.boot linksFs) ∧
    (linksFs.names (linksFs.dinode 1)).Nodup ∧
    (∀ name ∈ linksFs.names (linksFs.dinode 1), 0 < name.length ∧ name.length ≤ 13) ∧
    ∃ r, sysLs (fun _ => ⟨none, none⟩) [] (⟨Prod.mk⟩ : Vm (ℕ × ℕ)) none 0 (fun _ => 0)
        ⟨fun _ _ => false, fun _ _ => 0, []⟩ 0x100000 0x40000000 1 (InodeCache.boot linksFs) =
          .ok r ∧
      r.1.mem (sysBufRow 1) = 0x61 := by
  have hnames : linksFs.names (linksFs.dinode 1) = (List.range 295).map linkName := by
    rw [dinode_linksFs.1, names_linksFs]
  have hlengths : ∀ name ∈ linksFs.names (linksFs.dinode 1),
      0 < name.length ∧ name.length < dirsiz := by
    intro name hname
    rw [hnames] at hname
    obtain ⟨k, hk, rfl⟩ := List.mem_map.mp hname
    have hok := nameOk_linkName (List.mem_range.mp hk)
    exact ⟨hok.1.pos, hok.2⟩
  refine ⟨tree_linksFs, hnames ▸ nodup_linkNames,
    fun name hname => ⟨(hlengths name hname).1, Nat.le_of_lt_succ (hlengths name hname).2⟩, ?_⟩
  have hcwd : WorksIn smallGeometry (InodeCache.boot linksFs) none 1 := rfl
  have hmeets := sysLs_meets (fun _ => ⟨none, none⟩) [] (⟨Prod.mk⟩ : Vm (ℕ × ℕ)) tree_linksFs 0
    (fun _ => 0) ⟨fun _ _ => false, fun _ _ => 0, []⟩ 0x100000 0x40000000 1 hcwd (by decide +kernel)
    fun name hname => (hlengths name hname).2
  obtain ⟨r, hok, dp, -, hr⟩ := hmeets.exists_ok (not_exhausted_boot (by decide))
  refine ⟨r, hok, ?_⟩
  have hsome : linksFs.names (linksFs.dinode 1) ≠ [] := by
    rw [hnames]
    decide
  have hbyte : (listing ((List.range 295).map linkName)).getD 4096 0 = 0x61 := by decide +kernel
  have hlong : 4096 < (listing ((List.range 295).map linkName)).length := by decide +kernel
  rw [hr]
  refine (congrFun (mem_copyout hsome _ _ _ _ _ _ _ _) _).trans ?_
  rw [hnames]
  exact (Output.put_mem_add ⟨fun _ => 0, sysBufRow 0⟩ hlong).trans hbyte

end MCertikos.FS
