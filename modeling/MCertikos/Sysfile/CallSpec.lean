/-
# The file-system calls keep to the discipline

All references that a call takes it also drops or gives to its working directory and its open
files, except for `sys_pwd`, which keeps one to every directory it passes.
-/

import MCertikos.Sysfile.Calls
import MCertikos.Sysfile.Idle

namespace MCertikos.Sysfile

open Math FS UserMem Task

namespace Rules

variable {R : Rules} {l : Proc}

/-! ## `file.c` -/

structure Quiet (R : Rules) (l : Proc) : Prop extends R.Calm l where
  trans : l.trans = false

variable {Q : Unit → Proc → Prop} {β : Type} {P : β → Proc → Prop}

theorem Quiet.beginTrans_bind {f : Unit → Code β} (hl : R.Quiet l)
    (hf : ∀ v, (f v).wp R.discipline P l.enter) : (beginTrans >>= f).wp R.discipline P l :=
  wp_bind (beginTrans_wp hl.bufLock hf)

theorem Quiet.commitTrans_wp (hl : R.Quiet l) (hpost : ∀ v, Q v l) :
    commitTrans.wp R.discipline Q l.enter := by
  refine Rules.commitTrans_wp (l := l.enter) hl.bufLock rfl fun v => ?_
  have hleave : l.enter.leave = l := Proc.leave_of_trans hl.trans
  change Q v l.enter.leave
  rw [hleave]
  exact hpost v

theorem Quiet.commitTrans_bind {f : Unit → Code β} (hl : R.Quiet l)
    (hf : ∀ v, (f v).wp R.discipline P l) : (commitTrans >>= f).wp R.discipline P l.enter :=
  wp_bind (hl.commitTrans_wp hf)

theorem Quiet.gain (hl : R.Quiet l) (i : ℕ) : R.Quiet (l.gain i) :=
  ⟨hl.toCalm.gain i, hl.trans⟩

theorem Quiet.calm_enter (hl : R.Quiet l) : R.Calm l.enter := ⟨hl.bufLock, hl.inodes⟩

theorem Quiet.mayWrite_enter (hl : R.Quiet l) : R.MayWrite l.enter := ⟨hl.bufLock, fun _ => rfl⟩

variable {f : ℕ}

theorem fileClose_wp_none (hf : l.files f = some none) (hpost : ∀ v, Q v (l.setFile f none)) :
    (fileClose f).wp R.discipline Q l := by
  refine act_bind ⟨none, hf⟩ trivial fun r hr _ => ?_
  obtain ⟨file, rfl, hfile⟩ := hr
  have htype : file.type ≠ .inode := hfile none hf
  change wp _ (if file.type = .inode then _ else _) _ _
  rw [if_neg htype]
  exact hpost ()

variable {i : ℕ}

theorem fileClose_wp_some (hl : R.Quiet l) (hf : l.files f = some (some i)) (href : 1 ≤ l.refs i)
    (hpost : ∀ v, Q v ((l.setFile f none).lose i)) : (fileClose f).wp R.discipline Q l := by
  refine act_bind ⟨some i, hf⟩ trivial fun r hr _ => ?_
  obtain ⟨file, rfl, hfile⟩ := hr
  obtain ⟨htype, hip⟩ : file.type = .inode ∧ file.ip = i := hfile (some i) hf
  have hquiet : R.Quiet (l.setFile f none) := ⟨⟨hl.bufLock, hl.inodes⟩, hl.trans⟩
  have hlose : R.Quiet ((l.setFile f none).lose i) :=
    ⟨⟨hl.bufLock, hl.inodes⟩, hl.trans⟩
  change wp _ (if file.type = .inode then _ else _) _ (l.setFile f none)
  rw [if_pos htype, hip]
  apply hquiet.beginTrans_bind
  intro _
  apply wp_bind
  apply hquiet.calm_enter.inodePut_wp href
  intro _
  exact hlose.commitTrans_wp hpost

theorem fileGet_bind {k : File → Code β} (hf : l.files f = some (some i))
    (hk : ∀ file : File, file.type = .inode → file.ip = i → (k file).wp R.discipline P l) :
    (act (.fileGet f) >>= k).wp R.discipline P l := by
  refine act_bind trivial trivial fun file hfile _ => ?_
  obtain ⟨htype, hip⟩ : file.type = .inode ∧ file.ip = i := hfile (some i) hf
  exact hk file htype hip

theorem keeps_fileRead (hl : R.Calm l) (hf : l.files f = some (some i)) (href : 1 ≤ l.refs i)
    (n : BitVec 32) : R.Keeps (fileRead f n) l := by
  apply fileGet_bind hf
  intro file htype hip
  split
  · exact keeps_pure _
  · subst hip
    apply inodeLock_bind hl.bufLock href
    intro _
    apply fileGet_bind (l := l.lock file.ip) hf
    intro file' _ hip
    rw [hip]
    apply (keeps_inodeRead (l := l.lock file.ip) hl.bufLock _ _ _).bind
    rintro ⟨r, data⟩
    have hunlock : (inodeUnlock file.ip >>= fun _ => (pure (r, data) : Code _)).wp R.discipline
        (fun _ l' => l' = l) (l.lock file.ip) := by
      apply inodeUnlock_bind
      intro _
      exact keeps_pure _
    dsimp only
    split
    · apply plain_bind rfl
      intro _
      exact hunlock
    · exact hunlock

theorem keeps_writeOne (hl : R.Quiet l) (hf : l.files f = some (some i)) (href : 1 ≤ l.refs i)
    (src : ℕ → Byte) (k n1 : ℕ) : R.Keeps (writeOne f src k n1) l := by
  apply hl.beginTrans_bind
  intro _
  apply fileGet_bind (l := l.enter) hf
  intro file _ hip
  subst hip
  apply inodeLock_bind hl.calm_enter.bufLock href
  intro _
  apply fileGet_bind (l := l.enter.lock file.ip) hf
  intro file' _ hip
  rw [hip]
  apply (keeps_inodeWrite (hl.mayWrite_enter.lock file.ip) _ _ _ _).bind
  intro r
  have hend : (inodeUnlock file.ip >>= fun _ => commitTrans >>= fun _ =>
      (pure r : Code ℤ)).wp R.discipline (fun _ l' => l' = l) (l.enter.lock file.ip) := by
    apply inodeUnlock_bind
    intro _
    apply hl.commitTrans_bind
    intro _
    exact keeps_pure r
  dsimp only
  split
  · apply plain_bind rfl
    intro _
    exact hend
  · exact hend

theorem keeps_fileWriteLoop (hl : R.Quiet l) (hf : l.files f = some (some i)) (href : 1 ≤ l.refs i)
    (src : ℕ → Byte) (n fuel k : ℕ) : R.Keeps (fileWriteLoop f src n fuel k) l := by
  induction fuel generalizing k with
  | zero => exact keeps_pure k
  | succ fuel ih =>
    unfold fileWriteLoop
    split
    · apply (keeps_writeOne hl hf href src k _).bind
      intro r
      split_ifs
      · exact keeps_pure k
      · exact wp_stop (by decide)
      · exact ih _
    · exact keeps_pure k

theorem keeps_fileWrite (hl : R.Quiet l) (hf : l.files f = some (some i)) (href : 1 ≤ l.refs i)
    (src : ℕ → Byte) (n : ℕ) : R.Keeps (fileWrite f src n) l := by
  apply fileGet_bind hf
  intro file htype _
  split
  · exact keeps_pure _
  · apply (keeps_fileWriteLoop hl hf href src n n 0).bind
    intro k
    exact keeps_pure _

theorem keeps_fileStat (hl : R.Calm l) (hf : l.files f = some (some i)) (href : 1 ≤ l.refs i) :
    R.Keeps (fileStat f) l := by
  apply fileGet_bind hf
  intro file htype hip
  subst hip
  rw [if_pos htype]
  apply inodeLock_bind hl.bufLock href
  intro _
  apply plain_bind rfl
  intro ip
  apply inodeUnlock_bind
  intro _
  exact keeps_pure _

/-! ## Descriptors -/

theorem openFile_bind {fd : ℕ} {k : Option ℕ → Code β} (hnone : (k none).wp R.discipline P l)
    (hsome : ∀ f, l.openfiles fd = some f → (k (some f)).wp R.discipline P l) :
    (openFile fd >>= k).wp R.discipline P l := by
  apply wp_bind
  refine act_bind trivial trivial fun fds hfds _ => ?_
  obtain rfl : fds = l.openfiles := hfds
  change (k (if fd < nofile then l.openfiles fd else none)).wp R.discipline P l
  split
  · cases hf : l.openfiles fd with
    | none => exact hnone
    | some f => exact hsome f hf
  · exact hnone

theorem fdalloc_wp {Q : Option ℕ → Proc → Prop} (hnone : Q none l)
    (hsome : ∀ fd, fd < nofile → l.openfiles fd = none → Q (some fd) (l.setOpenfile fd (some f))) :
    (fdalloc f).wp R.discipline Q l := by
  refine act_bind trivial trivial fun fds hfds _ => ?_
  obtain rfl : fds = l.openfiles := hfds
  split
  · next fd hfind =>
    have hslot := List.mem_range.mp (List.mem_of_find?_eq_some hfind)
    have hfree := List.find?_some hfind
    apply wp_bind
    exact wp_act trivial trivial fun _ _ _ => hsome fd hslot (by simpa using hfree)
  · exact hnone

/-! ## The calls -/

end Rules

inductive Proc.Called (l : Proc) : Proc → Prop
  | same : Called l l
  | opened {fd f ip : ℕ} (slot : fd < nofile) (free : l.openfiles fd = none) (hlt : f < nfile)
      (new : l.files f = none) :
      Called l (((l.gain ip).setOpenfile fd (some f)).setFile f (some (some ip)))
  | closed {fd f i : ℕ} (hlt : f < nfile) (file : l.files f = some (some i))
      (slot : l.openfiles fd = some f) :
      Called l (((l.setFile f none).lose i).setOpenfile fd none)
  | chdir {i ip : ℕ} (cwd : l.cwd = some i) : Called l (((l.gain ip).lose i).setCwd ip)
  | setCwd {ip : ℕ} (cwd : l.cwd = none) : Called l ((l.gain ip).setCwd ip)

theorem Proc.Called.idle {l l' : Proc} (h : l.Called l') (hl : l.Idle) : l'.Idle := by
  cases h with
  | same => exact hl
  | opened slot free hlt new => exact hl.opened hlt new _ _
  | closed hlt file slot => exact hl.closed hlt file slot
  | chdir cwd => exact hl.chdir cwd _
  | setCwd cwd => exact hl.setCwd cwd _

namespace Rules

variable {R : Rules} {l : Proc}

theorem quiet_of_idle (hl : l.Idle) (hrw : R.rw = false) : R.Quiet l :=
  ⟨⟨hl.bufLock.trans hrw.symm, hl.inodes⟩, hl.trans⟩

variable {Q : Reply → Proc → Prop}

theorem withBufLock_wp {t : Code Reply} (hl : l.Idle) (ht : R.Keeps t { l with bufLock := true })
    (hpost : ∀ v, Q v l) : (withBufLock t).wp R.discipline Q l := by
  refine act_bind trivial trivial fun _ _ _ => ?_
  apply ht.bind
  intro r
  refine act_bind rfl trivial fun _ _ _ => ?_
  have hback : ({ l with bufLock := true } : Proc).after .unlockBuf () = l := by
    cases l
    cases hl.bufLock
    rfl
  change Q r (({ l with bufLock := true } : Proc).after .unlockBuf ())
  rw [hback]
  exact hpost r

theorem quiet_bufLock (hl : l.Idle) (hrw : R.rw = true) : R.Quiet { l with bufLock := true } :=
  ⟨⟨hrw.symm, hl.inodes⟩, hl.trans⟩

theorem sysRead_wp (hl : l.Idle) (hrw : R.rw = true) (fd : ℕ) (userBuf n : BitVec 32)
    (hpost : ∀ v, Q v l) : (sysRead fd userBuf n).wp R.discipline Q l := by
  refine withBufLock_wp hl ?_ hpost
  unfold readLocked
  split_ifs
  · exact keeps_pure _
  · exact keeps_pure _
  · apply openFile_bind
    · exact keeps_pure _
    · intro f hf
      obtain ⟨i, -, hi, href⟩ := hl.file hf
      apply (keeps_fileRead (quiet_bufLock hl hrw).toCalm hi href n).bind
      rintro ⟨r, data⟩
      exact keeps_pure _

theorem sysWrite_wp (hl : l.Idle) (hrw : R.rw = true) (fd : ℕ) (userBuf n : BitVec 32)
    (src : ℕ → Byte) (hpost : ∀ v, Q v l) : (sysWrite fd userBuf n src).wp R.discipline Q l := by
  refine withBufLock_wp hl ?_ hpost
  unfold writeLocked
  split_ifs
  · exact keeps_pure _
  · exact keeps_pure _
  · apply openFile_bind
    · exact keeps_pure _
    · intro f hf
      obtain ⟨i, -, hi, href⟩ := hl.file hf
      apply (keeps_fileWrite (quiet_bufLock hl hrw) hi href src _).bind
      intro r
      exact keeps_pure _

theorem sysFstat_wp (hl : l.Idle) (hrw : R.rw = false) (fd : ℕ) (userStp : BitVec 32)
    (hpost : ∀ v, Q v l) : (sysFstat fd userStp).wp R.discipline Q l := by
  have hquiet := quiet_of_idle hl hrw
  unfold sysFstat
  split
  · exact hpost _
  · apply openFile_bind
    · exact hpost _
    · intro f hf
      obtain ⟨i, -, hi, href⟩ := hl.file hf
      apply (keeps_fileStat hquiet.toCalm hi href).bind
      rintro (_ | _)
      · exact hpost _
      · exact hpost _

theorem sysClose_wp (hl : l.Idle) (hrw : R.rw = false) (fd : ℕ)
    (hpost : ∀ v l', l.Called l' → Q v l') : (sysClose fd).wp R.discipline Q l := by
  apply openFile_bind
  · exact hpost _ l .same
  · intro f hf
    obtain ⟨i, hlt, hi, href⟩ := hl.file hf
    apply wp_bind
    apply fileClose_wp_some (quiet_of_idle hl hrw) hi href
    intro _
    apply wp_bind
    exact wp_act trivial trivial fun _ _ _ => hpost _ _ (.closed hlt hi hf)

theorem linkBad_wp (hl : R.Quiet l) (ip : ℕ) (hpost : ∀ v, Q v l) :
    (linkBad ip).wp R.discipline Q (l.enter.gain ip) := by
  have href : 1 ≤ (l.enter.gain ip).refs ip := by simp
  have hcalm := hl.calm_enter.gain ip
  apply inodeLock_bind hcalm.bufLock href
  intro _
  apply plain_bind rfl
  intro _
  apply (keeps_inodeUpdate ((hl.mayWrite_enter.gain ip).lock ip) ip).bind
  intro _
  apply hl.calm_enter.drop_bind ip
  intro _
  apply hl.commitTrans_bind
  intro _
  exact hpost _

theorem linkEntry_wp (hl : R.Quiet l) (ip : ℕ) (new : List Byte) (hpost : ∀ v, Q v l) :
    (linkEntry ip new).wp R.discipline Q (l.enter.gain ip) := by
  have hcalm := hl.calm_enter.gain ip
  apply wp_bind
  apply namex_wp hcalm
  · exact linkBad_wp hl ip hpost
  · intro dp name
    have href : 1 ≤ ((l.enter.gain ip).gain dp).refs dp := by simp
    have hdp := hcalm.gain dp
    have hheld : ∀ i ∈ (((l.enter.gain ip).gain dp).lock dp).inodes,
        1 ≤ (((l.enter.gain ip).gain dp).lock dp).refs i := by
      intro i hi
      obtain rfl | hi := List.mem_cons.mp hi
      · exact href
      · exact hdp.not_mem hi
    apply inodeLock_bind hdp.bufLock href
    intro _
    apply plain_bind rfl
    intro d
    apply (keeps_dirLink (((hl.mayWrite_enter.gain ip).gain dp).lock dp) hheld dp name _).bind
    intro linked
    cases linked with
    | true =>
      apply hcalm.drop_bind dp
      intro _
      apply wp_bind
      apply hcalm.inodePut_wp (by simp)
      intro _
      rw [Proc.gain_lose]
      apply hl.commitTrans_bind
      intro _
      exact hpost _
    | false =>
      apply hcalm.drop_bind dp
      intro _
      exact linkBad_wp hl ip hpost

theorem sysLink_wp (hl : l.Idle) (hrw : R.rw = false) (old new : List Byte) (hpost : ∀ v, Q v l) :
    (sysLink old new).wp R.discipline Q l := by
  have hquiet := quiet_of_idle hl hrw
  apply wp_bind
  apply namei_wp hquiet.toCalm
  · exact hpost _
  · intro ip
    have href : 1 ≤ (l.enter.gain ip).refs ip := by simp
    have hcalm := hquiet.calm_enter.gain ip
    apply (hquiet.gain ip).beginTrans_bind
    intro _
    apply inodeLock_bind (l := l.enter.gain ip) hcalm.bufLock href
    intro _
    apply plain_bind rfl
    intro d
    split
    · apply hquiet.calm_enter.drop_bind ip
      intro _
      apply hquiet.commitTrans_bind
      intro _
      exact hpost _
    · apply plain_bind rfl
      intro _
      apply (keeps_inodeUpdate ((hquiet.mayWrite_enter.gain ip).lock ip) ip).bind
      intro _
      apply inodeUnlock_bind
      intro _
      exact linkEntry_wp hquiet ip _ hpost

theorem keeps_isdirempty (hl : l.bufLock = R.rw) (dp : ℕ) : R.Keeps (isdirempty dp) l := by
  apply (keeps_scanDir hl dp _ _ _).bind
  rintro ⟨de, off⟩
  exact keeps_pure _

theorem unlinkBad_wp (hl : R.Quiet l) (dp : ℕ) (hpost : ∀ v, Q v l) :
    (unlinkBad dp).wp R.discipline Q ((l.enter.gain dp).lock dp) := by
  apply hl.calm_enter.drop_bind dp
  intro _
  apply hl.commitTrans_bind
  intro _
  exact hpost _

theorem unlockput_parent_wp {Q : Unit → Proc → Prop} (hl : R.Calm l) (dp ip : ℕ)
    (hpost : ∀ v, Q v ((l.gain ip).lock ip)) :
    (inodeUnlockput dp).wp R.discipline Q ((((l.gain dp).gain ip).lock dp).lock ip) := by
  refine act_bind (List.mem_cons_of_mem _ List.mem_cons_self) trivial fun v _ _ => ?_
  rw [Proc.lock_lock_after_inodeRelease]
  apply inodePut_wp (l := ((l.gain dp).gain ip).lock ip) hl.bufLock
  · exact (Nat.le_add_left 1 _).trans
      ((Proc.refs_gain_self l dp).ge.trans (Proc.refs_le_gain (l.gain dp) ip dp))
  · intro hmem
    -- The parent stays locked only if it is the child, which has a reference of its own.
    obtain rfl | hmem := List.mem_cons.mp hmem
    · simp [Proc.lock]
    · exact hl.not_mem hmem
  · intro v
    rw [Proc.lock_lose, Proc.gain_gain_lose]
    exact hpost v

theorem unlinkEntry_wp (hl : R.Quiet l) (dp ip off : ℕ) (type : BitVec 16) (hpost : ∀ v, Q v l) :
    (unlinkEntry dp ip off type).wp R.discipline Q
      ((((l.enter.gain dp).gain ip).lock dp).lock ip) := by
  have hwrite := (((hl.mayWrite_enter.gain dp).gain ip).lock dp).lock ip
  have hend : (inodeUnlockput dp >>= fun _ =>
      act (.inodeModify ip fun d => { d with nlink := d.nlink - 1 }) >>= fun _ =>
      inodeUpdate ip >>= fun _ => inodeUnlockput ip >>= fun _ => commitTrans >>= fun _ =>
      (pure (reply .succ none) : Code Reply)).wp R.discipline Q
        ((((l.enter.gain dp).gain ip).lock dp).lock ip) := by
    apply wp_bind
    apply unlockput_parent_wp hl.calm_enter
    intro _
    apply plain_bind rfl
    intro _
    apply (keeps_inodeUpdate ((hl.mayWrite_enter.gain ip).lock ip) ip).bind
    intro _
    apply hl.calm_enter.drop_bind ip
    intro _
    apply hl.commitTrans_bind
    intro _
    exact hpost _
  apply (keeps_writeDirent hwrite dp _ off).bind
  intro _
  dsimp only
  split
  · apply plain_bind rfl
    intro _
    apply (keeps_inodeUpdate hwrite dp).bind
    intro _
    exact hend
  · exact hend

theorem sysUnlink_wp (hl : l.Idle) (hrw : R.rw = false) (path : List Byte) (hpost : ∀ v, Q v l) :
    (sysUnlink path).wp R.discipline Q l := by
  have hquiet := quiet_of_idle hl hrw
  apply wp_bind
  apply namex_wp hquiet.toCalm
  · exact hpost _
  · intro dp name
    have hcalm := hquiet.calm_enter.gain dp
    apply (hquiet.gain dp).beginTrans_bind
    intro _
    apply inodeLock_bind (l := l.enter.gain dp) hcalm.bufLock (by simp)
    intro _
    split
    · exact unlinkBad_wp hquiet dp hpost
    · apply wp_bind
      apply dirLookup_wp (l := (l.enter.gain dp).lock dp) hcalm.bufLock
      · exact unlinkBad_wp hquiet dp hpost
      · intro ip off
        have hwrite₁ := ((hquiet.mayWrite_enter.gain dp).gain ip).lock dp
        have hwrite := hwrite₁.lock ip
        apply inodeLock_bind hwrite₁.bufLock (by simp [Proc.lock])
        intro _
        apply plain_bind rfl
        intro d
        split_ifs
        · exact wp_stop (by decide)
        · apply (keeps_isdirempty hwrite.bufLock ip).bind
          intro empty
          cases empty with
          | true => exact unlinkEntry_wp hquiet dp ip off _ hpost
          | false =>
            apply wp_bind
            apply inodeUnlockput_wp (l := ((l.enter.gain dp).gain ip).lock dp) hquiet.bufLock
            · simp [Proc.lock]
            · intro hmem
              obtain rfl | hmem := List.mem_cons.mp hmem
              · simp [Proc.lock]
              · exact hcalm.not_mem hmem
            · intro _
              rw [Proc.lock_lose, Proc.gain_lose]
              exact unlinkBad_wp hquiet dp hpost
        · exact unlinkEntry_wp hquiet dp ip off _ hpost

theorem createNew_wp {Q : ℕ → Proc → Prop} (hl : R.Quiet l) (dp : ℕ) (name : List Byte)
    (type : BitVec 16) (hpost : ∀ ip, Q ip ((l.enter.gain ip).lock ip)) :
    (createNew dp name type).wp R.discipline Q ((l.enter.gain dp).lock dp) := by
  apply wp_bind
  apply inodeAlloc_wp ((hl.mayWrite_enter.gain dp).lock dp)
  intro ip
  have hwrite₁ := ((hl.mayWrite_enter.gain dp).gain ip).lock dp
  have hwrite := hwrite₁.lock ip
  have hheld : ∀ i ∈ ((((l.enter.gain dp).gain ip).lock dp).lock ip).inodes,
      1 ≤ ((((l.enter.gain dp).gain ip).lock dp).lock ip).refs i := by
    intro i hi
    obtain rfl | hi := List.mem_cons.mp hi
    · simp [Proc.lock]
    · obtain rfl | hi := List.mem_cons.mp hi
      · exact (Nat.le_add_left 1 _).trans
          ((Proc.refs_gain_self _ i).ge.trans (Proc.refs_le_gain (l.enter.gain i) ip i))
      · exact hl.calm_enter.not_mem hi
  apply inodeLock_bind hwrite₁.bufLock (by simp [Proc.lock])
  intro _
  apply plain_bind rfl
  intro _
  apply (keeps_inodeUpdate hwrite ip).bind
  intro _
  apply plain_bind rfl
  intro d
  have hend : (dirLink dp name d.inum >>= fun linked =>
      if linked = true then inodeUnlockput dp >>= fun _ => (pure ip : Code ℕ)
      else stop .createLink).wp R.discipline Q
        ((((l.enter.gain dp).gain ip).lock dp).lock ip) := by
    apply (keeps_dirLink hwrite hheld dp name _).bind
    intro linked
    split
    · apply wp_bind
      apply unlockput_parent_wp hl.calm_enter
      intro _
      exact hpost ip
    · exact wp_stop (by decide)
  dsimp only
  split
  · apply plain_bind rfl
    intro _
    apply (keeps_inodeUpdate hwrite dp).bind
    intro _
    apply plain_bind rfl
    intro parent
    apply (keeps_dirLink hwrite hheld ip dot _).bind
    intro linked
    split
    · apply (keeps_dirLink hwrite hheld ip dotdot _).bind
      intro linked
      split
      · exact hend
      · apply wp_bind
        exact wp_stop (by decide)
    · apply wp_bind
      exact wp_stop (by decide)
  · exact hend

theorem create_wp {Q : Option ℕ → Proc → Prop} (hl : R.Quiet l) (path : List Byte)
    (type : BitVec 16) (hnone : Q none l.enter)
    (hsome : ∀ ip, Q (some ip) ((l.enter.gain ip).lock ip)) :
    (create path type).wp R.discipline Q l.enter := by
  apply wp_bind
  apply namex_wp hl.calm_enter
  · exact hnone
  · intro dp name
    have hcalm := hl.calm_enter.gain dp
    apply inodeLock_bind hcalm.bufLock (by simp)
    intro _
    apply wp_bind
    apply dirLookup_wp (l := (l.enter.gain dp).lock dp) hcalm.bufLock
    · apply wp_bind
      apply createNew_wp hl
      intro ip
      exact hsome ip
    · intro ip off
      apply wp_bind
      apply (hcalm.gain ip).inodeUnlockput_wp
      · exact (Nat.le_add_left 1 _).trans
          ((Proc.refs_gain_self _ dp).ge.trans (Proc.refs_le_gain (l.enter.gain dp) ip dp))
      · intro _
        rw [Proc.gain_gain_lose]
        apply inodeLock_bind (hl.calm_enter.gain ip).bufLock (by simp)
        intro _
        apply plain_bind rfl
        intro d
        split
        · exact hsome ip
        · apply hl.calm_enter.drop_bind ip
          intro _
          exact hnone

theorem openInode_wp (hl : l.Idle) (hrw : R.rw = false) (ip : ℕ) (omode : BitVec 32)
    (hpost : ∀ v l', l.Called l' → Q v l') :
    (openInode ip omode).wp R.discipline Q ((l.gain ip).lock ip) := by
  have hcalm := (quiet_of_idle hl hrw).toCalm
  have hfail : ∀ v, (inodeUnlockput ip >>= fun _ => (pure v : Code Reply)).wp R.discipline Q
      ((l.gain ip).lock ip) := by
    intro v
    apply hcalm.drop_bind ip
    intro _
    exact hpost v l .same
  refine act_bind trivial trivial fun f hf _ => ?_
  cases f with
  | none => exact hfail _
  | some f =>
    obtain ⟨hfile, hlt⟩ : l.files f = none ∧ f < nfile := hf
    apply wp_bind
    apply fdalloc_wp
    · apply wp_bind
      apply fileClose_wp_none
      · exact Function.update_self ..
      · intro _
        have hback := Proc.setFile_setFile_none (l := (l.gain ip).lock ip) hfile (some none)
        change wp _ _ _ ((((l.gain ip).lock ip).setFile f (some none)).setFile f none)
        rw [hback]
        exact hfail _
    · intro fd hslot hfree
      apply inodeUnlock_bind (l := ((l.gain ip).setFile f (some none)).setOpenfile fd (some f))
      intro _
      refine act_bind ⟨none, Function.update_self ..⟩ trivial fun _ _ _ => ?_
      apply hpost
      have hopened :
          l.Called (((l.gain ip).setOpenfile fd (some f)).setFile f (some (some ip))) :=
        .opened hslot hfree hlt hfile
      simpa [Proc.after, Proc.setFile, Proc.setOpenfile] using hopened

theorem openFirst_wp {Q : Unit → Proc → Prop} (hl : l.Idle) (hrw : R.rw = false)
    (hpost : ∀ v, Q v l) : openFirst.wp R.discipline Q l := by
  refine act_bind trivial trivial fun first _ _ => ?_
  cases first with
  | false => exact hpost ()
  | true =>
    apply (keeps_logInit (l := { l with recovering := true }) (hl.bufLock.trans hrw.symm)).bind
    intro _
    refine wp_act trivial trivial fun v _ _ => ?_
    have hback : ({ l with recovering := true } : Proc).after .noteRecovered v = l := by
      cases l
      cases hl.recovering
      rfl
    rw [hback]
    exact hpost v

theorem sysOpen_wp (hl : l.Idle) (hrw : R.rw = false) (path : List Byte) (omode : BitVec 32)
    (hpost : ∀ v l', l.Called l' → Q v l') : (sysOpen path omode).wp R.discipline Q l := by
  have hquiet := quiet_of_idle hl hrw
  apply wp_bind
  apply openFirst_wp hl hrw
  intro _
  split
  · apply hquiet.beginTrans_bind
    intro _
    apply wp_bind
    apply create_wp hquiet
    · apply hquiet.commitTrans_bind
      intro _
      exact hpost _ l .same
    · intro ip
      apply wp_bind
      refine commitTrans_wp (l := (l.enter.gain ip).lock ip) hquiet.bufLock rfl fun _ => ?_
      have hleave : ((l.enter.gain ip).lock ip).leave = (l.gain ip).lock ip := by
        change ((l.gain ip).lock ip).leave = (l.gain ip).lock ip
        exact Proc.leave_of_trans hl.trans
      change wp _ _ _ ((l.enter.gain ip).lock ip).leave
      rw [hleave]
      exact openInode_wp hl hrw ip omode hpost
  · apply wp_bind
    apply namei_wp hquiet.toCalm
    · exact hpost _ l .same
    · intro ip
      apply inodeLock_bind (hquiet.gain ip).bufLock (by simp)
      intro _
      apply plain_bind rfl
      intro d
      split
      · apply hquiet.drop_bind ip
        intro _
        exact hpost _ l .same
      · exact openInode_wp hl hrw ip omode hpost

theorem sysMkdir_wp (hl : l.Idle) (hrw : R.rw = false) (path : List Byte) (hpost : ∀ v, Q v l) :
    (sysMkdir path).wp R.discipline Q l := by
  have hquiet := quiet_of_idle hl hrw
  apply hquiet.beginTrans_bind
  intro _
  apply wp_bind
  apply create_wp hquiet
  · apply hquiet.commitTrans_bind
    intro _
    exact hpost _
  · intro ip
    apply hquiet.calm_enter.drop_bind ip
    intro _
    apply hquiet.commitTrans_bind
    intro _
    exact hpost _

theorem sysChdir_wp (hl : l.Idle) (hrw : R.rw = false) (path : List Byte)
    (hpost : ∀ v l', l.Called l' → Q v l') : (sysChdir path).wp R.discipline Q l := by
  have hquiet := quiet_of_idle hl hrw
  apply wp_bind
  apply namei_wp hquiet.toCalm
  · exact hpost _ l .same
  · intro ip
    apply inodeLock_bind (hquiet.gain ip).bufLock (by simp)
    intro _
    apply plain_bind rfl
    intro d
    split
    · apply hquiet.drop_bind ip
      intro _
      exact hpost _ l .same
    · apply inodeUnlock_bind
      intro _
      refine act_bind trivial trivial fun cwd hcwd _ => ?_
      obtain rfl : cwd = l.cwd := hcwd
      split
      · exact wp_stop (by decide)
      · next cwd hcwd =>
        apply wp_bind
        apply (hquiet.gain ip).inodePut_wp
        · exact (hl.refs_cwd hcwd).trans (Proc.refs_le_gain l ip cwd)
        · intro _
          apply wp_bind
          exact wp_act trivial trivial fun _ _ _ => hpost _ _ (.chdir hcwd)

/-! ## `sys_ls` and `sys_pwd` -/

theorem workingDir_wp {Q : ℕ → Proc → Prop}
    (hpost : ∀ ip l', l.Called l' → l'.cwd = some ip → Q ip l') :
    workingDir.wp R.discipline Q l := by
  refine act_bind trivial trivial fun cwd hcwd _ => ?_
  obtain rfl : cwd = l.cwd := hcwd
  split
  · next ip hcwd => exact hpost ip l .same hcwd
  · next hcwd =>
    apply wp_bind
    apply inodeGet_wp
    intro ip
    apply wp_bind
    exact wp_act trivial trivial fun _ _ _ => hpost ip _ (.setCwd hcwd) rfl

theorem keeps_lsLoop (hl : l.bufLock = R.rw) (dp fuel off : ℕ) : R.Keeps (lsLoop dp fuel off) l := by
  induction fuel generalizing off with
  | zero => exact wp_stop (by decide)
  | succ fuel ih =>
    apply plain_bind rfl
    intro d
    split
    · apply (keeps_readDirent hl dp off).bind
      intro de
      apply (ih _).bind
      intro rest
      exact keeps_pure _
    · exact keeps_pure []

theorem sysLs_wp (hl : l.Idle) (hrw : R.rw = false) (bufLen : ℕ)
    (hpost : ∀ v l', l.Called l' → Q v l') : (sysLs bufLen).wp R.discipline Q l := by
  apply wp_bind
  apply workingDir_wp
  intro dp l hcalled hcwd
  replace hl := hcalled.idle hl
  have hcalm := (quiet_of_idle hl hrw).toCalm
  apply inodeLock_bind hcalm.bufLock (hl.refs_cwd hcwd)
  intro _
  apply (keeps_lsLoop (l := l.lock dp) hcalm.bufLock dp _ _).bind
  intro names
  apply inodeUnlock_bind
  intro _
  exact hpost _ l hcalled

theorem keeps_nameIn (hl : l.bufLock = R.rw) (dp : ℕ) (inum : BitVec 32) (fuel off : ℕ) :
    R.Keeps (nameIn dp inum fuel off) l := by
  induction fuel generalizing off with
  | zero => exact wp_stop (by decide)
  | succ fuel ih =>
    apply plain_bind rfl
    intro d
    split
    · apply (keeps_inodeRead hl dp _ _).bind
      rintro ⟨r, data⟩
      dsimp only
      split_ifs
      · exact keeps_pure []
      · exact keeps_pure _
      · exact ih _
    · exact keeps_pure []

theorem pwdLoop_wp {Q : List (List Byte) → Proc → Prop} (hrw : R.rw = false) (fuel cur : ℕ)
    (hl : l.Idle) (hpost : ∀ v l', l'.Idle → Q v l') : (pwdLoop fuel cur).wp R.discipline Q l := by
  induction fuel generalizing cur l Q with
  | zero => exact wp_stop (by decide)
  | succ fuel ih =>
    have hread := (quiet_of_idle hl hrw).bufLock
    apply wp_bind
    apply dirLookup_wp hread
    · exact wp_stop (by decide)
    · intro parent off
      have hgain := hl.gain parent
      apply plain_bind rfl
      intro p
      apply plain_bind rfl
      intro c
      split
      · exact hpost _ _ hgain
      · apply (keeps_nameIn (quiet_of_idle hgain hrw).bufLock parent _ _ _).bind
        intro name
        apply wp_bind
        apply ih _ hgain
        intro rest l' hl'
        exact hpost _ l' hl'

theorem sysPwd_wp (hl : l.Idle) (hrw : R.rw = false) (turns : ℕ)
    (hpost : ∀ v l', l'.Idle → Q v l') : (sysPwd turns).wp R.discipline Q l := by
  apply wp_bind
  apply workingDir_wp
  intro cwd l hcalled _
  apply wp_bind
  apply pwdLoop_wp hrw turns cwd (hcalled.idle hl)
  intro _ l' hl'
  exact hpost _ l' hl'

end Rules

/-! ## Every call -/

def Call.isReadWrite : Call → Bool
  | .read _ _ _ => true
  | .write _ _ _ _ => true
  | _ => false

def Call.rules (strict : Prop) (c : Call) : Rules := ⟨strict, c.isReadWrite⟩

def Call.isPwd : Call → Bool
  | .pwd _ => true
  | _ => false

theorem Call.code_wp_called (strict : Prop) {c : Call} (hc : c.isPwd = false) {l : Proc}
    (hl : l.Idle) : c.code.wp (c.rules strict).discipline (fun _ l' => l.Called l') l := by
  cases c with
  | «open» path omode => exact Rules.sysOpen_wp hl rfl path omode fun _ _ h => h
  | close fd => exact Rules.sysClose_wp hl rfl fd fun _ _ h => h
  | read fd userBuf n => exact Rules.sysRead_wp hl rfl fd userBuf n fun _ => .same
  | write fd userBuf n src => exact Rules.sysWrite_wp hl rfl fd userBuf n src fun _ => .same
  | mkdir path => exact Rules.sysMkdir_wp hl rfl path fun _ => .same
  | chdir path => exact Rules.sysChdir_wp hl rfl path fun _ _ h => h
  | link old new => exact Rules.sysLink_wp hl rfl old new fun _ => .same
  | unlink path => exact Rules.sysUnlink_wp hl rfl path fun _ => .same
  | fstat fd userStp => exact Rules.sysFstat_wp hl rfl fd userStp fun _ => .same
  | ls bufLen => exact Rules.sysLs_wp hl rfl bufLen fun _ _ h => h
  | pwd turns => cases hc

/-- **Every call keeps to the discipline**, and takes a process that is in no call to one that
is in no call. -/
theorem Call.code_wp (strict : Prop) (c : Call) {l : Proc} (hl : l.Idle) :
    c.code.wp (c.rules strict).discipline (fun _ => Proc.Idle) l := by
  cases hc : c.isPwd with
  | false => exact wp_mono (c.code_wp_called strict hc hl) fun _ _ h => h.idle hl
  | true =>
    cases c with
    | pwd turns => exact Rules.sysPwd_wp hl rfl turns fun _ _ h => h
    | _ => cases hc

end MCertikos.Sysfile
