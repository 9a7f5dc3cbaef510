/-
# The working directory

A process is created without a working directory.
-/

import MCertikos.Sysfile.Transactions

namespace MCertikos.Sysfile

open Math FS UserMem

@[grind]
def Act.isGetCwd : Act → Bool
  | .getCwd => true
  | _ => false

def NoCwd {β : Type} (t : Code β) : Prop := t.All (I := iface) fun a : Act => a.isGetCwd = false

/-! The rules for the parts of the code.  Applied backwards, they decide whether a function reads
the working directory. -/

namespace NoCwd

variable {β γ : Type}

@[grind ←]
theorem pure (value : β) : NoCwd (Pure.pure value) := Task.all_pure value

@[grind ←]
theorem act {a : Act} (ha : a.isGetCwd = false) : NoCwd (act a) := Task.all_perform (I := iface) ha

@[grind ←]
theorem stop (reason : Stop) : NoCwd (stop reason : Code β) := ⟨rfl, fun r => by cases r⟩

@[grind ←]
theorem bind {t : Code γ} {f : γ → Code β} (ht : NoCwd t) (hf : ∀ value, NoCwd (f value)) :
    NoCwd (t >>= f) := Task.all_bind ht hf

theorem ite {c : Prop} [Decidable c] {t t' : Code β} (ht : NoCwd t) (ht' : NoCwd t') :
    NoCwd (if c then t else t') := Task.all_ite ht ht'

@[grind ←]
theorem each {f : γ → Code Unit} {xs : List γ} (hf : ∀ x, NoCwd (f x)) :
    NoCwd (Task.each f xs) := Task.all_each hf

end NoCwd

/-! ## `bufcache.c`, `ide.c`, `log.c` and `block.c` -/

@[grind ←]
theorem noCwd_ideRw (b : ℕ) : NoCwd (ideRw b) := by unfold ideRw; grind

@[grind ←]
theorem noCwd_bufcacheRead (sector : Sector) : NoCwd (bufcacheRead sector) := by
  unfold bufcacheRead
  grind

@[grind ←]
theorem noCwd_bufcacheWrite (b : ℕ) : NoCwd (bufcacheWrite b) := by unfold bufcacheWrite; grind

@[grind ←]
theorem noCwd_bufcacheRelease (b : ℕ) : NoCwd (bufcacheRelease b) := by
  unfold bufcacheRelease
  grind

@[grind ←]
theorem noCwd_readSuperblock : NoCwd readSuperblock := by unfold readSuperblock; grind

@[grind ←]
theorem noCwd_installOne (log : Log) (tail : ℕ) : NoCwd (installOne log tail) := by
  unfold installOne
  grind

@[grind ←]
theorem noCwd_installFrom (fuel tail : ℕ) : NoCwd (installFrom fuel tail) := by
  induction fuel generalizing tail with
  | zero => unfold installFrom; grind
  | succ fuel ih => unfold installFrom; grind

@[grind ←]
theorem noCwd_readHead : NoCwd readHead := by unfold readHead; grind

@[grind ←]
theorem noCwd_writeHead : NoCwd writeHead := by unfold writeHead; grind

@[grind ←]
theorem noCwd_logInit : NoCwd logInit :=
  noCwd_readSuperblock.bind fun _ => (NoCwd.act rfl).bind fun _ =>
    noCwd_readHead.bind fun _ => (noCwd_installFrom _ _).bind fun _ =>
    (NoCwd.act rfl).bind fun _ => noCwd_writeHead

@[grind ←]
theorem noCwd_beginTrans : NoCwd beginTrans := by unfold beginTrans; grind

@[grind ←]
theorem noCwd_commitTrans : NoCwd commitTrans :=
  (NoCwd.act rfl).bind fun _ =>
    .ite (noCwd_writeHead.bind fun _ => (noCwd_installFrom _ _).bind fun _ =>
      (NoCwd.act rfl).bind fun _ => noCwd_writeHead.bind fun _ => .act rfl) (.act rfl)

@[grind ←]
theorem noCwd_logWrite (b : ℕ) (sector : Sector) : NoCwd (logWrite b sector) :=
  (NoCwd.act rfl).bind fun _ => .ite (.stop _) <| .ite (.stop _) <|
    (NoCwd.act rfl).bind fun _ => (noCwd_bufcacheRead _).bind fun lbuf =>
    (NoCwd.act rfl).bind fun _ => (NoCwd.act rfl).bind fun _ =>
    (noCwd_bufcacheWrite lbuf).bind fun _ => (noCwd_bufcacheRelease lbuf).bind fun _ =>
    (NoCwd.act rfl).bind fun _ => .act rfl

@[grind ←]
theorem noCwd_blockZero (bno : Sector) : NoCwd (blockZero bno) := by unfold blockZero; grind

@[grind ←]
theorem noCwd_allocFrom (sb : Superblock) (ks : List ℕ) : NoCwd (allocFrom sb ks) := by
  induction ks with
  | nil => exact .stop _
  | cons k ks ih =>
    refine (noCwd_bufcacheRead _).bind fun bp => (NoCwd.act rfl).bind fun free => ?_
    cases free with
    | some bi =>
      exact (NoCwd.act rfl).bind fun _ => (noCwd_logWrite bp _).bind fun _ =>
        (noCwd_bufcacheRelease bp).bind fun _ => (noCwd_blockZero _).bind fun _ => .pure _
    | none => exact (noCwd_bufcacheRelease bp).bind fun _ => ih

@[grind ←]
theorem noCwd_blockAlloc : NoCwd blockAlloc := by unfold blockAlloc; grind

@[grind ←]
theorem noCwd_blockFree (b : Sector) : NoCwd (blockFree b) := by unfold blockFree; grind

/-! ## `inode.c` -/

@[grind ←]
theorem noCwd_allocInode (type : BitVec 16) (inums : List ℕ) : NoCwd (allocInode type inums) := by
  induction inums with
  | nil => unfold allocInode; grind
  | cons inum rest ih => unfold allocInode; grind

@[grind ←]
theorem noCwd_inodeAlloc (type : BitVec 16) : NoCwd (inodeAlloc type) := by unfold inodeAlloc; grind

@[grind ←]
theorem noCwd_inodeUpdate (i : ℕ) : NoCwd (inodeUpdate i) := by unfold inodeUpdate; grind

@[grind ←]
theorem noCwd_inodeLock (i : ℕ) : NoCwd (inodeLock i) := by
  unfold inodeLock
  refine .bind (by grind) fun _ => .bind (by grind) fun _ => ?_
  split
  all_goals grind

@[grind ←]
theorem noCwd_inodeUnlock (i : ℕ) : NoCwd (inodeUnlock i) := by unfold inodeUnlock; grind

@[grind ←]
theorem noCwd_truncDirect (i k : ℕ) : NoCwd (truncDirect i k) := by unfold truncDirect; grind

@[grind ←]
theorem noCwd_truncEntry (bp j : ℕ) : NoCwd (truncEntry bp j) := by unfold truncEntry; grind

@[grind ←]
theorem noCwd_truncIndirect (i : ℕ) : NoCwd (truncIndirect i) :=
  (NoCwd.act rfl).bind fun addr => .ite (.pure ()) <|
    (noCwd_bufcacheRead addr).bind fun bp => (NoCwd.each (noCwd_truncEntry bp)).bind fun _ =>
    (noCwd_bufcacheRelease bp).bind fun _ => (noCwd_blockFree addr).bind fun _ => .act rfl

@[grind ←]
theorem noCwd_inodeTrunc (i : ℕ) : NoCwd (inodeTrunc i) :=
  (NoCwd.each (noCwd_truncDirect i)).bind fun _ => (noCwd_truncIndirect i).bind fun _ =>
    (NoCwd.act rfl).bind fun _ => noCwd_inodeUpdate i

@[grind ←]
theorem noCwd_inodePut (i : ℕ) : NoCwd (inodePut i) := by unfold inodePut; grind

@[grind ←]
theorem noCwd_inodeUnlockput (i : ℕ) : NoCwd (inodeUnlockput i) := by unfold inodeUnlockput; grind

@[grind ←]
theorem noCwd_addrAlloc (i k : ℕ) : NoCwd (addrAlloc i k) := by unfold addrAlloc; grind

@[grind ←]
theorem noCwd_entryAlloc (ind : Sector) (j : ℕ) : NoCwd (entryAlloc ind j) := by
  unfold entryAlloc
  grind

@[grind ←]
theorem noCwd_bmap (i bn : ℕ) : NoCwd (bmap i bn) := by unfold bmap; grind

@[grind ←]
theorem noCwd_readLoop (i n fuel tot off : ℕ) : NoCwd (readLoop i n fuel tot off) := by
  induction fuel generalizing tot off with
  | zero => unfold readLoop; grind
  | succ fuel ih => unfold readLoop; grind

@[grind ←]
theorem noCwd_deviceAccess {β : Type} (ip : Inode) (refused : β) :
    NoCwd (deviceAccess ip refused) := by unfold deviceAccess; grind

@[grind ←]
theorem noCwd_inodeRead (i : ℕ) (off n : BitVec 32) : NoCwd (inodeRead i off n) := by
  unfold inodeRead
  grind

@[grind ←]
theorem noCwd_writeLoop (i n : ℕ) (src : ℕ → Byte) (fuel tot off : ℕ) :
    NoCwd (writeLoop i n src fuel tot off) := by
  induction fuel generalizing tot off with
  | zero => unfold writeLoop; grind
  | succ fuel ih => unfold writeLoop; grind

@[grind ←]
theorem noCwd_inodeWrite (i : ℕ) (src : ℕ → Byte) (off n : BitVec 32) :
    NoCwd (inodeWrite i src off n) := by unfold inodeWrite; grind

/-! ## `dir.c` and `path.c` -/

@[grind ←]
theorem noCwd_readDirent (dp off : ℕ) : NoCwd (readDirent dp off) := by unfold readDirent; grind

@[grind ←]
theorem noCwd_scanDir (dp : ℕ) (found : Dirent → Bool) (fuel off : ℕ) :
    NoCwd (scanDir dp found fuel off) := by
  induction fuel generalizing off with
  | zero => unfold scanDir; grind
  | succ fuel ih => unfold scanDir; grind

@[grind ←]
theorem noCwd_dirLookup (dp : ℕ) (name : List Byte) : NoCwd (dirLookup dp name) := by
  unfold dirLookup
  grind

@[grind ←]
theorem noCwd_writeDirent (dp : ℕ) (de : Dirent) (off : ℕ) : NoCwd (writeDirent dp de off) := by
  unfold writeDirent
  grind

@[grind ←]
theorem noCwd_dirLink (dp : ℕ) (name : List Byte) (inum : BitVec 32) :
    NoCwd (dirLink dp name inum) := by unfold dirLink; grind

@[grind ←]
theorem noCwd_namexLoop (parent : Bool) (fuel ip : ℕ) (path name : List Byte) :
    NoCwd (namexLoop parent fuel ip path name) := by
  induction fuel generalizing ip path name with
  | zero => exact .stop _
  | succ fuel ih =>
    unfold namexLoop
    split
    · exact .ite ((noCwd_inodePut ip).bind fun _ => .pure _) (.pure _)
    · next name path _ =>
      refine (noCwd_inodeLock ip).bind fun _ => (NoCwd.act rfl).bind fun _ =>
        .ite ((noCwd_inodeUnlockput ip).bind fun _ => .pure _) <|
        .ite ((noCwd_inodeUnlock ip).bind fun _ => .pure _) <|
        (noCwd_dirLookup ip name).bind fun r => ?_
      obtain _ | ⟨subdir, off⟩ := r
      · exact (noCwd_inodeUnlockput ip).bind fun _ => .pure _
      · exact (noCwd_inodeUnlockput ip).bind fun _ => ih subdir path name

@[grind]
def rooted (path : List Byte) : Bool := path.head? = some slash

variable {path : List Byte}

@[grind ←]
theorem noCwd_namex (hpath : rooted path) (parent : Bool) : NoCwd (namex path parent) := by
  grind [namex, startInode]

@[grind ←]
theorem noCwd_namei (hpath : rooted path) : NoCwd (namei path) := by unfold namei; grind

/-! ## `file.c` and `sysfile.c` -/

@[grind ←]
theorem noCwd_fileClose (f : ℕ) : NoCwd (fileClose f) := by unfold fileClose; grind

@[grind ←]
theorem noCwd_fileRead (f : ℕ) (n : BitVec 32) : NoCwd (fileRead f n) := by unfold fileRead; grind

@[grind ←]
theorem noCwd_writeOne (f : ℕ) (src : ℕ → Byte) (i n1 : ℕ) : NoCwd (writeOne f src i n1) := by
  unfold writeOne
  refine .bind (by grind) fun _ => .bind (by grind) fun _ => .bind (by grind) fun _ => ?_
  grind

@[grind ←]
theorem noCwd_fileWriteLoop (f : ℕ) (src : ℕ → Byte) (n fuel i : ℕ) :
    NoCwd (fileWriteLoop f src n fuel i) := by
  induction fuel generalizing i with
  | zero => unfold fileWriteLoop; grind
  | succ fuel ih => unfold fileWriteLoop; grind

@[grind ←]
theorem noCwd_fileWrite (f : ℕ) (src : ℕ → Byte) (n : ℕ) : NoCwd (fileWrite f src n) := by
  unfold fileWrite
  grind

@[grind ←]
theorem noCwd_openFile (fd : ℕ) : NoCwd (openFile fd) := by unfold openFile; grind

theorem noCwd_openFile_bind {fd : ℕ} {bad : Reply} {f : ℕ → Code Reply} (hf : ∀ k, NoCwd (f k)) :
    NoCwd (openFile fd >>= fun r => match r with
      | none => return bad
      | some k => f k) := by
  refine (noCwd_openFile fd).bind fun r => ?_
  cases r with
  | none => exact .pure _
  | some k => exact hf k

@[grind ←]
theorem noCwd_withBufLock {t : Code Reply} (ht : NoCwd t) : NoCwd (withBufLock t) := by
  unfold withBufLock
  grind

@[grind ←]
theorem noCwd_sysRead (fd : ℕ) (userBuf n : BitVec 32) : NoCwd (sysRead fd userBuf n) :=
  noCwd_withBufLock <| .ite (.pure _) <| .ite (.pure _) <| noCwd_openFile_bind fun f =>
    (noCwd_fileRead f n).bind fun _ => .pure _

@[grind ←]
theorem noCwd_sysWrite (fd : ℕ) (userBuf n : BitVec 32) (src : ℕ → Byte) :
    NoCwd (sysWrite fd userBuf n src) :=
  noCwd_withBufLock <| .ite (.pure _) <| .ite (.pure _) <| noCwd_openFile_bind fun f =>
    (noCwd_fileWrite f src _).bind fun _ => .pure _

@[grind ←]
theorem noCwd_sysFstat (fd : ℕ) (userStp : BitVec 32) : NoCwd (sysFstat fd userStp) := by
  refine .ite (.pure _) <| noCwd_openFile_bind fun f => ?_
  have hstat : NoCwd (fileStat f) := (NoCwd.act rfl).bind fun file => .ite
    ((noCwd_inodeLock _).bind fun _ => (NoCwd.act rfl).bind fun _ =>
      (noCwd_inodeUnlock _).bind fun _ => .pure _) (.pure _)
  refine hstat.bind fun r => ?_
  cases r with
  | none => exact .pure _
  | some st => exact .pure _

@[grind ←]
theorem noCwd_sysClose (fd : ℕ) : NoCwd (sysClose fd) := by unfold sysClose; grind

@[grind ←]
theorem noCwd_linkBad (ip : ℕ) : NoCwd (linkBad ip) := by unfold linkBad; grind

@[grind ←]
theorem noCwd_linkEntry (ip : ℕ) {new : List Byte} (hnew : rooted new) :
    NoCwd (linkEntry ip new) := by
  refine (noCwd_namex hnew true).bind fun r => ?_
  obtain _ | ⟨dp, name⟩ := r
  · exact noCwd_linkBad ip
  · exact (noCwd_inodeLock dp).bind fun _ => (NoCwd.act rfl).bind fun _ =>
      (noCwd_dirLink dp name _).bind fun _ => .ite
        ((noCwd_inodeUnlockput dp).bind fun _ => (noCwd_inodePut ip).bind fun _ =>
          noCwd_commitTrans.bind fun _ => .pure _)
        ((noCwd_inodeUnlockput dp).bind fun _ => noCwd_linkBad ip)

@[grind ←]
theorem noCwd_sysLink {old new : List Byte} (hold : rooted (userPath old))
    (hnew : rooted (userPath new)) :
    NoCwd (sysLink old new) := by
  unfold sysLink
  refine .bind (by grind) fun _ => ?_
  split
  all_goals grind

@[grind ←]
theorem noCwd_unlinkBad (dp : ℕ) : NoCwd (unlinkBad dp) := by unfold unlinkBad; grind

@[grind ←]
theorem noCwd_unlinkEntry (dp ip off : ℕ) (type : BitVec 16) :
    NoCwd (unlinkEntry dp ip off type) := by
  unfold unlinkEntry
  refine .bind (by grind) fun _ => ?_
  split
  all_goals grind

@[grind ←]
theorem noCwd_sysUnlink (hpath : rooted (userPath path)) : NoCwd (sysUnlink path) := by
  refine (noCwd_namex hpath true).bind fun r => ?_
  obtain _ | ⟨dp, name⟩ := r
  · exact .pure _
  refine noCwd_beginTrans.bind fun _ => (noCwd_inodeLock dp).bind fun _ =>
    .ite (noCwd_unlinkBad dp) <| (noCwd_dirLookup dp name).bind fun r => ?_
  obtain _ | ⟨ip, off⟩ := r
  · exact noCwd_unlinkBad dp
  · have hentry := noCwd_unlinkEntry dp ip off
    exact (noCwd_inodeLock ip).bind fun _ => (NoCwd.act rfl).bind fun _ => .ite (.stop _) <|
      .ite (((noCwd_scanDir ip _ _ _).bind fun _ => .pure _).bind fun _ => .ite (hentry _)
        ((noCwd_inodeUnlockput ip).bind fun _ => noCwd_unlinkBad dp)) (hentry _)

@[grind ←]
theorem noCwd_createNew (dp : ℕ) (name : List Byte) (type : BitVec 16) :
    NoCwd (createNew dp name type) := by
  refine (noCwd_inodeAlloc type).bind fun ip => (noCwd_inodeLock ip).bind fun _ =>
    (NoCwd.act rfl).bind fun _ => (noCwd_inodeUpdate ip).bind fun _ =>
    (NoCwd.act rfl).bind fun d => ?_
  have hend : NoCwd (do
      if ← dirLink dp name d.inum then
        inodeUnlockput dp
        return ip
      else Sysfile.stop .createLink) :=
    (noCwd_dirLink dp name _).bind fun _ => .ite
      ((noCwd_inodeUnlockput dp).bind fun _ => .pure _) (.stop _)
  exact .ite ((NoCwd.act rfl).bind fun _ => (noCwd_inodeUpdate dp).bind fun _ =>
    (NoCwd.act rfl).bind fun _ => (noCwd_dirLink ip dot _).bind fun _ => .ite
      ((noCwd_dirLink ip dotdot _).bind fun _ => .ite hend ((NoCwd.stop _).bind fun _ => hend))
      ((NoCwd.stop _).bind fun _ => hend)) hend

@[grind ←]
theorem noCwd_create (hpath : rooted path) (type : BitVec 16) : NoCwd (create path type) := by
  refine (noCwd_namex hpath true).bind fun r => ?_
  obtain _ | ⟨dp, name⟩ := r
  · exact .pure _
  refine (noCwd_inodeLock dp).bind fun _ => (noCwd_dirLookup dp name).bind fun r => ?_
  obtain _ | ⟨ip, off⟩ := r
  · exact (noCwd_createNew dp name type).bind fun _ => .pure _
  · exact (noCwd_inodeUnlockput dp).bind fun _ => (noCwd_inodeLock ip).bind fun _ =>
      (NoCwd.act rfl).bind fun _ => .ite (.pure _)
        ((noCwd_inodeUnlockput ip).bind fun _ => .pure _)

@[grind ←]
theorem noCwd_fdalloc (f : ℕ) : NoCwd (fdalloc f) := by unfold fdalloc; grind

@[grind ←]
theorem noCwd_openInode (ip : ℕ) (omode : BitVec 32) : NoCwd (openInode ip omode) := by
  unfold openInode
  refine .bind (by grind) fun _ => ?_
  split
  all_goals grind

@[grind ←]
theorem noCwd_sysOpen (hpath : rooted (userPath path)) (omode : BitVec 32) :
    NoCwd (sysOpen path omode) := by
  have hfirst : NoCwd openFirst :=
    (NoCwd.act rfl).bind fun _ => .ite (noCwd_logInit.bind fun _ => .act rfl) (.pure _)
  refine hfirst.bind fun _ => .ite ?_ ?_
  · refine noCwd_beginTrans.bind fun _ => (noCwd_create hpath tFile).bind fun ip =>
      noCwd_commitTrans.bind fun _ => ?_
    cases ip with
    | none => exact .pure _
    | some ip => exact noCwd_openInode ip omode
  · refine (noCwd_namei hpath).bind fun r => ?_
    cases r with
    | none => exact .pure _
    | some ip =>
      exact (noCwd_inodeLock ip).bind fun _ => (NoCwd.act rfl).bind fun _ => .ite
        ((noCwd_inodeUnlockput ip).bind fun _ => .pure _) (noCwd_openInode ip omode)

@[grind ←]
theorem noCwd_sysMkdir (hpath : rooted (userPath path)) : NoCwd (sysMkdir path) := by
  unfold sysMkdir
  grind

/-! ## The calls -/

def Call.setsCwd : Call → Bool
  | .ls _ | .pwd _ => true
  | _ => false

def Call.rooted : Call → Bool
  | .open path _ => Sysfile.rooted (userPath path)
  | .mkdir path => Sysfile.rooted (userPath path)
  | .unlink path => Sysfile.rooted (userPath path)
  | .link old new => Sysfile.rooted (userPath old) && Sysfile.rooted (userPath new)
  | .chdir _ => false
  | _ => true

theorem noCwd_code {c : Call} (hrooted : c.rooted) (hset : c.setsCwd = false) : NoCwd c.code := by
  cases c with
  | «open» path omode => exact noCwd_sysOpen hrooted omode
  | close fd => exact noCwd_sysClose fd
  | read fd userBuf n => exact noCwd_sysRead fd userBuf n
  | write fd userBuf n src => exact noCwd_sysWrite fd userBuf n src
  | mkdir path => exact noCwd_sysMkdir hrooted
  | chdir path => cases hrooted
  | link old new =>
    obtain ⟨hold, hnew⟩ := Bool.and_eq_true_iff.mp hrooted
    exact noCwd_sysLink hold hnew
  | unlink path => exact noCwd_sysUnlink hrooted
  | fstat fd userStp => exact noCwd_sysFstat fd userStp
  | ls bufLen => cases hset
  | pwd turns => cases hset

/-- The guard of runs in which a process without a working directory makes no call that needs
one. -/
def StartsRooted (k : Calls) : ThreadOp Call Unit → Prop
  | .start p c => (k.state.proc p).cwd ≠ none ∨ c.rooted = true
  | _ => True

instance (k : Calls) : (op : ThreadOp Call Unit) → Decidable (StartsRooted k op)
  | .start p c => inferInstanceAs (Decidable ((k.state.proc p).cwd ≠ none ∨ c.rooted = true))
  | .act _ => isTrue trivial
  | .intr _ => isTrue trivial

def CwdReady (k : Calls) : Prop :=
  ∀ p c t, k.running p = some (c, t) → c.setsCwd = false →
    (k.state.proc p).cwd ≠ none ∨ NoCwd t

theorem cwd_after {l : Proc} (hl : l.cwd ≠ none) (a : Act) (r : a.Res) :
    (l.after a r).cwd ≠ none := by
  unfold Proc.after
  split <;> first | exact hl | exact Option.some_ne_none _

theorem CwdReady.step {k next : Calls} {op : ThreadOp Call Unit} (h : CwdReady k)
    (hop : StartsRooted k op) (hstep : (system Call.code).Step k op next) : CwdReady next := by
  cases hstep with
  | @start pid c hrun =>
    intro p c' t hp hc
    by_cases hpid : p = pid
    · subst hpid
      simp only [Function.update_self, Option.some.injEq, Prod.mk.injEq] at hp
      obtain ⟨rfl, rfl⟩ := hp
      exact hop.imp_right fun hrooted => noCwd_code hrooted hc
    · exact h p c' t (by simpa [hpid] using hp) hc
  | @ret pid c value hrun =>
    intro p c' t hp hc
    by_cases hpid : p = pid
    · simp [hpid] at hp
    · exact h p c' t (by simpa [hpid] using hp) hc
  | @act pid c a rest w wakes r hrun hact =>
    obtain ⟨shared, -, rfl⟩ := effect_of_step hact
    intro p c' t hp hc
    by_cases hpid : p = pid
    · subst hpid
      simp only [Function.update_self, Option.some.injEq, Prod.mk.injEq] at hp ⊢
      obtain ⟨rfl, rfl⟩ := hp
      exact (h p c _ hrun hc).imp (fun hcwd => cwd_after hcwd a r) fun hno => hno.2 r
    · simpa [hpid] using h p c' t (by simpa [hpid] using hp) hc
  | intr => exact h

def asksCwd {β : Type} : Code β → Bool
  | .act .getCwd _ => true
  | _ => false

theorem NoCwd.asksCwd {β : Type} {t : Code β} (h : NoCwd t) : asksCwd t = false := by
  unfold Sysfile.asksCwd
  split
  · cases h.1
  · rfl

/-- **Paths start somewhere.** Let no process make a call that needs a working directory before
it has one.  Then in every state of every interleaving of the calls, `namex` and `sys_chdir`
find a working directory when they ask for one. -/
theorem cwd_set_when_asked {disk : Disk} {trace : List (ThreadOp Call Unit × Option Reply)}
    {k : Calls}
    (run : (system Call.code).machine.Run StartsRooted (.boot (.boot disk)) trace k) (p : ℕ)
    (c : Call) (t : Code Reply) (hrun : k.running p = some (c, t)) (hc : c.setsCwd = false)
    (hasks : asksCwd t = true) : (k.state.proc p).cwd ≠ none := by
  have hready : CwdReady k := by
    apply run.invariant
    · intro p c t hp
      cases hp
    · intro k next op out h hop hexec
      exact h.step hop (System.step_of_exec hexec)
  refine (hready p c t hrun hc).resolve_right fun hno => ?_
  rw [hno.asksCwd] at hasks
  cases hasks

def dName : List Byte := [0x64]

theorem cwd_set_when_asked_of_ls :
    ∃ (trace : List (ThreadOp Call Unit × Option Reply)) (k : Calls) (c : Call) (t : Code Reply),
      (system Call.code).machine.Run StartsRooted mkfsBoot trace k ∧
      k.running 1 = some (c, t) ∧ c.setsCwd = false ∧ asksCwd t = true ∧
      (k.state.proc 1).cwd ≠ none := by
  let turns : List (System.Turn Call Unit) :=
    inSequence [(1, .ls 100)] ++ [.step (.start 1 (.mkdir dName)), .step (.act 1)]
  obtain ⟨trace, run⟩ : ∃ trace, (system Call.code).machine.Run StartsRooted mkfsBoot trace
      (after StartsRooted turns) := System.run_of_play StartsRooted 2000 turns mkfsBoot
  have hasks : ((after StartsRooted turns).running 1).any
      (fun x => !x.1.setsCwd && asksCwd x.2) := by
    decide +kernel
  generalize after StartsRooted turns = k at run hasks
  cases hrun : k.running 1 with
  | none => simp [hrun] at hasks
  | some x =>
    obtain ⟨c, t⟩ := x
    simp only [hrun, Option.any_some, Bool.and_eq_true, Bool.not_eq_eq_eq_not,
      Bool.not_true] at hasks
    exact ⟨trace, k, c, t, run, hrun, hasks.1, hasks.2,
      cwd_set_when_asked run 1 c t hrun hasks.1 hasks.2⟩

/-- A new process makes a directory under a relative name, and another one changes its
directory: each of them follows a null pointer. -/
theorem unset_cwd_is_followed :
    (∃ (trace : List (ThreadOp Call Unit × Option Reply)) (k : Calls),
      (system Call.code).machine.Run Machine.anyStep mkfsBoot trace k ∧
      k = after Machine.anyStep [.step (.start 1 (.mkdir dName)), .step (.act 1)] ∧
      (k.running 1).any (fun x => !x.1.setsCwd && asksCwd x.2) ∧ (k.state.proc 1).cwd = none) ∧
    ∃ (trace : List (ThreadOp Call Unit × Option Reply)) (k : Calls),
      (system Call.code).machine.Run Machine.anyStep mkfsBoot trace k ∧
      k = after Machine.anyStep (inSequence [(1, .chdir [slash])]) ∧
      (k.state.proc 1).cwd = none ∧ (system Call.code).haltsWith k 1 = some .nullPointer := by
  constructor
  · obtain ⟨trace, hrun⟩ := System.run_of_play Machine.anyStep 2000
      [.step (.start 1 (.mkdir dName)), .step (.act 1)] mkfsBoot
    exact ⟨trace, _, hrun, rfl, by decide +kernel⟩
  · obtain ⟨trace, hrun⟩ := System.run_of_play Machine.anyStep 2000
      (inSequence [(1, .chdir [slash])]) mkfsBoot
    exact ⟨trace, _, hrun, rfl, by decide +kernel⟩

end MCertikos.Sysfile
