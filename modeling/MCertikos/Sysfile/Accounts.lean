/-
# The shared data and what the processes hold

The invariant behind the sleep locks: for the log, the inode cache, the buffer cache and the file
table it says how the flags and counters in the shared data agree with what the processes hold.
-/

import MCertikos.Math.Threads
import MCertikos.Sysfile.Discipline

namespace MCertikos.Sysfile

open Math FS Function Shared

variable {s s' : Shared} {l : Proc} {w w' : World} {pid : ℕ} {a : Act} {r : a.Res}
  {wakes : List Chan}

/-! ## What an action can do -/

inductive LogMove (s : Shared) (l : Proc) : (a : Act) → a.Res → Shared → Prop
  | acquire {s' : Shared} (free : s.log.busy = false) (busy : s'.log.busy = true) :
      LogMove s l .logAcquire () s'
  | release {s' : Shared} (busy : s'.log.busy = false) : LogMove s l .logRelease () s'
  | frame {a : Act} {r : a.Res} {s' : Shared} (busy : s'.log.busy = s.log.busy)
      (proc : (l.after a r).trans = l.trans) : LogMove s l a r s'

inductive BufMove (s : Shared) (l : Proc) : (a : Act) → a.Res → Shared → Prop
  | take {sector : Sector} {b : ℕ} {buf : Buf} {s' : Shared} (free : (s.bufs b).busy = false)
      (bufs : s'.bufs = update s.bufs b buf) (busy : buf.busy = true)
      (has : buf.sector = some sector) : BufMove s l (.bufGet sector) b s'
  | release {b : ℕ} {buf : Buf} {s' : Shared} (bufs : s'.bufs = update s.bufs b buf)
      (free : buf.busy = false) : BufMove s l (.bufRelease b) () s'
  | frame {a : Act} {r : a.Res} {s' : Shared}
      (bufs : ∀ b, (s'.bufs b).busy = (s.bufs b).busy ∧ (s'.bufs b).sector = (s.bufs b).sector)
      (proc : (l.after a r).bufs = l.bufs) : BufMove s l a r s'

inductive InodeMove (s : Shared) (l : Proc) : (a : Act) → a.Res → Shared → Prop
  | gain {a : Act} {r : a.Res} {i : ℕ} {ip : Inode} {s' : Shared}
      (inodes : s'.inodes = update s.inodes i ip) (ref : ip.ref = (s.inodes i).ref + 1)
      (busy : ip.busy = (s.inodes i).busy ∨ (s.inodes i).ref = 0 ∧ ip.busy = false)
      (proc : l.after a r = l.gain i) : InodeMove s l a r s'
  | acquire {i : ℕ} {ip : Inode} {s' : Shared} (free : (s.inodes i).busy = false)
      (inodes : s'.inodes = update s.inodes i ip) (ref : ip.ref = (s.inodes i).ref)
      (busy : ip.busy = true) : InodeMove s l (.inodeAcquire i) () s'
  | release {i : ℕ} {ip : Inode} {s' : Shared}
      (inodes : s'.inodes = update s.inodes i ip) (ref : ip.ref = (s.inodes i).ref)
      (free : ip.busy = false) : InodeMove s l (.inodeRelease i) () s'
  | free {i : ℕ} {ip : Inode} {s' : Shared} (free : (s.inodes i).busy = false)
      (inodes : s'.inodes = update s.inodes i ip) (ref : ip.ref = (s.inodes i).ref)
      (busy : ip.busy = true) : InodeMove s l (.inodePutTest i) true s'
  | lose {i : ℕ} {ip : Inode} {s' : Shared}
      (inodes : s'.inodes = update s.inodes i ip) (ref : ip.ref = (s.inodes i).ref - 1)
      (busy : ip.busy = (s.inodes i).busy) : InodeMove s l (.inodePutTest i) false s'
  | finish {i : ℕ} {ip : Inode} {s' : Shared}
      (inodes : s'.inodes = update s.inodes i ip) (ref : ip.ref = (s.inodes i).ref - 1)
      (free : ip.busy = false) : InodeMove s l (.inodePutFinish i) () s'
  | frame {a : Act} {r : a.Res} {s' : Shared}
      (inodes : ∀ i, (s'.inodes i).busy = (s.inodes i).busy ∧ (s'.inodes i).ref = (s.inodes i).ref)
      (proc : (l.after a r).inodes = l.inodes) (refs : (l.after a r).refs = l.refs) :
      InodeMove s l a r s'

inductive FileMove (s : Shared) (l : Proc) : (a : Act) → a.Res → Shared → Prop
  | alloc {f : ℕ} {file : File} {s' : Shared} (hlt : f < nfile) (free : (s.ftable f).ref = 0)
      (ftable : s'.ftable = update s.ftable f file) (ref : file.ref = 1)
      (type : file.type = (s.ftable f).type) : FileMove s l .fileAlloc (some f) s'
  | close {f : ℕ} {file : File} {s' : Shared} (last : (s.ftable f).ref ≤ 1)
      (ftable : s'.ftable = update s.ftable f file) (ref : file.ref = 0)
      (type : file.type = .none) : FileMove s l (.fileClose f) (some (s.ftable f)) s'
  | share {f : ℕ} {s' : Shared} (more : 1 < (s.ftable f).ref) : FileMove s l (.fileClose f) none s'
  | setup {f ip : ℕ} {readable writable : Bool} {file : File} {s' : Shared}
      (ftable : s'.ftable = update s.ftable f file) (ref : file.ref = (s.ftable f).ref)
      (refers : file.RefersTo (some ip)) : FileMove s l (.fileSetup f ip readable writable) () s'
  | frame {a : Act} {r : a.Res} {s' : Shared}
      (ftable : ∀ f, (s'.ftable f).ref = (s.ftable f).ref ∧
        (s'.ftable f).type = (s.ftable f).type ∧ (s'.ftable f).ip = (s.ftable f).ip)
      (proc : (l.after a r).files = l.files) : FileMove s l a r s'

inductive BufLockMove (s : Shared) (l : Proc) : (a : Act) → a.Res → Shared → Prop
  | acquire {s' : Shared} (free : s.bufLock = false) (held : s'.bufLock = true) :
      BufLockMove s l .lockBuf () s'
  | release {s' : Shared} (free : s'.bufLock = false) : BufLockMove s l .unlockBuf () s'
  | frame {a : Act} {r : a.Res} {s' : Shared} (held : s'.bufLock = s.bufLock)
      (proc : (l.after a r).bufLock = l.bufLock) : BufLockMove s l a r s'

theorem logMove_of_effect (h : s.effect l a = .done s' wakes r) : LogMove s l a r s' := by
  cases a with
  | logAcquire =>
    simp only [effect] at h
    split at h
    · cases h
    · next hfree =>
      cases h
      exact .acquire (by simpa using hfree) rfl
  | logRelease =>
    cases h
    exact .release rfl
  | testFirst =>
    cases h
    exact .frame rfl (by cases s.first <;> rfl)
  | _ =>
    simp only [effect, bufcacheGet, Shared.bufcacheRelease, ideSubmit,
      inodeGet, inodeAcquire, Shared.inodeUnlock, inodePutTest,
      inodePutFinish, fileAlloc, Shared.fileClose] at h
    repeat' split at h
    all_goals first
      | cases h; done
      | cases h; exact .frame rfl rfl

theorem setBuf_frame {b : ℕ} {f : Buf → Buf} (busy : (f (s.bufs b)).busy = (s.bufs b).busy)
    (sector : (f (s.bufs b)).sector = (s.bufs b).sector) (c : ℕ) :
    ((s.setBuf b f).bufs c).busy = (s.bufs c).busy ∧
      ((s.setBuf b f).bufs c).sector = (s.bufs c).sector := by
  by_cases hc : c = b
  · subst hc
    simp [setBuf, busy, sector]
  · simp [setBuf, hc]

theorem bufMove_of_effect (h : s.effect l a = .done s' wakes r) : BufMove s l a r s' := by
  cases a with
  | bufGet sector =>
    simp only [effect, bufcacheGet] at h
    split at h
    · next b hfind =>
      split at h
      · cases h
      · next hfree =>
        cases h
        have hsector := List.find?_some hfind
        exact .take (by simpa using hfree) rfl rfl (by simpa using hsector)
    · split at h
      · next b hfind =>
        cases h
        have hfree := List.find?_some hfind
        simp only [Bool.and_eq_true, Bool.not_eq_true'] at hfree
        exact .take hfree.1 rfl rfl rfl
      · cases h
  | bufRelease b =>
    simp only [effect, Shared.bufcacheRelease] at h
    split at h
    · cases h
      exact .release rfl rfl
    · cases h
  | bufModify b f =>
    cases h
    exact .frame (setBuf_frame rfl rfl) rfl
  | bufSetDirty b =>
    cases h
    exact .frame (setBuf_frame rfl rfl) rfl
  | bufWrite b =>
    simp only [effect] at h
    split at h
    · cases h
      exact .frame (setBuf_frame rfl rfl) rfl
    · cases h
  | testFirst =>
    cases h
    exact .frame (fun _ => ⟨rfl, rfl⟩) (by cases s.first <;> rfl)
  | _ =>
    simp only [effect, ideSubmit, inodeGet, inodeAcquire,
      Shared.inodeUnlock, inodePutTest, inodePutFinish, fileAlloc,
      Shared.fileClose] at h
    repeat' split at h
    all_goals first
      | cases h; done
      | cases h; exact .frame (fun _ => ⟨rfl, rfl⟩) rfl

theorem setInode_frame {i : ℕ} {f : Inode → Inode}
    (busy : (f (s.inodes i)).busy = (s.inodes i).busy)
    (ref : (f (s.inodes i)).ref = (s.inodes i).ref) (j : ℕ) :
    ((s.setInode i f).inodes j).busy = (s.inodes j).busy ∧
      ((s.setInode i f).inodes j).ref = (s.inodes j).ref := by
  by_cases hj : j = i
  · subst hj
    simp [setInode, busy, ref]
  · simp [setInode, hj]

theorem inodeMove_of_effect (h : s.effect l a = .done s' wakes r) : InodeMove s l a r s' := by
  cases a with
  | inodeGet inum =>
    simp only [effect, inodeGet] at h
    split at h
    · cases h
      exact .gain rfl rfl (.inl rfl) rfl
    · split at h
      · next i hfind =>
        cases h
        have hzero := List.find?_some hfind
        simp only [decide_eq_true_eq] at hzero
        exact .gain rfl (by simp [hzero]) (.inr ⟨hzero, rfl⟩) rfl
      · cases h
  | inodeDup i =>
    cases h
    exact .gain rfl rfl (.inl rfl) rfl
  | inodeAcquire i =>
    simp only [effect, inodeAcquire] at h
    split_ifs at h with hnone hfree
    cases h
    exact .acquire (by simpa using hfree) rfl rfl rfl
  | inodeRelease i =>
    simp only [effect, Shared.inodeUnlock] at h
    split_ifs at h
    cases h
    exact .release rfl rfl rfl
  | inodePutTest i =>
    simp only [effect, inodePutTest] at h
    split_ifs at h with hlast hfree
    · cases h
      exact .free (by simpa using hfree) rfl rfl rfl
    · cases h
      exact .lose rfl rfl rfl
  | inodePutFinish i =>
    cases h
    exact .finish rfl rfl rfl
  | inodeModify i f =>
    cases h
    exact .frame (setInode_frame rfl rfl) rfl rfl
  | inodeSetValid i =>
    cases h
    exact .frame (setInode_frame rfl rfl) rfl rfl
  | testFirst =>
    cases h
    exact .frame (fun _ => ⟨rfl, rfl⟩) (by cases s.first <;> rfl) (by cases s.first <;> rfl)
  | _ =>
    simp only [effect, bufcacheGet, Shared.bufcacheRelease, ideSubmit,
      fileAlloc, Shared.fileClose] at h
    repeat' split at h
    all_goals first
      | cases h; done
      | cases h; exact .frame (fun _ => ⟨rfl, rfl⟩) rfl rfl

theorem fileMove_of_effect (h : s.effect l a = .done s' wakes r) : FileMove s l a r s' := by
  cases a with
  | fileAlloc =>
    simp only [effect, fileAlloc] at h
    split at h
    · next f hfind =>
      cases h
      have hfree := List.find?_some hfind
      have hmem := List.mem_of_find?_eq_some hfind
      exact .alloc (List.mem_range.mp hmem) (by simpa using hfree) rfl rfl rfl
    · cases h
      exact .frame (fun _ => ⟨rfl, rfl, rfl⟩) rfl
  | fileClose f =>
    simp only [effect, Shared.fileClose] at h
    split_ifs at h with hnone hmore
    · cases h
      exact .share (by omega)
    · cases h
      exact .close (by omega) rfl rfl rfl
  | fileSetup f ip readable writable =>
    cases h
    exact .setup rfl rfl ⟨rfl, rfl⟩
  | fileAdvance f n =>
    cases h
    refine .frame (fun g => ?_) rfl
    by_cases hg : g = f
    · subst hg
      simp [setFile]
    · simp [setFile, hg]
  | testFirst =>
    cases h
    exact .frame (fun _ => ⟨rfl, rfl, rfl⟩) (by cases s.first <;> rfl)
  | _ =>
    simp only [effect, bufcacheGet, Shared.bufcacheRelease, ideSubmit,
      inodeGet, inodeAcquire, Shared.inodeUnlock, inodePutTest,
      inodePutFinish] at h
    repeat' split at h
    all_goals first
      | cases h; done
      | cases h; exact .frame (fun _ => ⟨rfl, rfl, rfl⟩) rfl

theorem bufLockMove_of_effect (h : s.effect l a = .done s' wakes r) : BufLockMove s l a r s' := by
  cases a with
  | lockBuf =>
    simp only [effect] at h
    split at h
    · cases h
    · next hfree =>
      cases h
      exact .acquire (by simpa using hfree) rfl
  | unlockBuf =>
    cases h
    exact .release rfl
  | testFirst =>
    cases h
    exact .frame rfl (by cases s.first <;> rfl)
  | _ =>
    simp only [effect, bufcacheGet, Shared.bufcacheRelease, ideSubmit,
      inodeGet, inodeAcquire, Shared.inodeUnlock, inodePutTest,
      inodePutFinish, fileAlloc, Shared.fileClose] at h
    repeat' split at h
    all_goals first
      | cases h; done
      | cases h; exact .frame rfl rfl

theorem effect_of_step (h : step pid a w = .done w' wakes r) :
    ∃ shared, w.shared.effect (w.proc pid) a = .done shared wakes r ∧
      w' = ⟨shared, update w.proc pid ((w.proc pid).after a r)⟩ := by
  unfold step at h
  split at h
  · next heffect =>
    cases h
    exact ⟨_, heffect, rfl⟩
  · cases h
  · cases h

theorem Shared.ideIntr_frame (s : Shared) :
    ∃ bufs queue disk, s.ideIntr.1 = { s with bufs := bufs, idequeue := queue, disk := disk } ∧
      ∀ b, (bufs b).busy = (s.bufs b).busy ∧ (bufs b).sector = (s.bufs b).sector := by
  unfold ideIntr
  split
  · exact ⟨_, _, _, rfl, fun _ => ⟨rfl, rfl⟩⟩
  · next c rest hqueue =>
    by_cases hdirty : (s.bufs c).dirty
    all_goals
      simp only [hdirty, if_true, if_false, Bool.false_eq_true]
      refine ⟨_, _, _, rfl, fun b => ?_⟩
      by_cases hb : b = c <;> simp [setBuf, hb]

/-! ## The accounts -/

abbrev LogAccounts (log : Log) (proc : ℕ → Proc) : Prop :=
  Exclusive (fun _ : Unit => log.busy = true) fun p _ => (proc p).trans = true

abbrev BufLockAccounts (bufLock : Bool) (proc : ℕ → Proc) : Prop :=
  Exclusive (fun _ : Unit => bufLock = true) fun p _ => (proc p).bufLock = true

/-- The busy buffers are those that processes hold, and they have the sectors that the
processes asked for. -/
structure BufAccounts (bufs : ℕ → Buf) (proc : ℕ → Proc) : Prop where
  locked : Exclusive (fun b => (bufs b).busy = true)
    fun p b => ∃ sector, (b, sector) ∈ (proc p).bufs
  nodup : ∀ p, ((proc p).bufs.map Prod.fst).Nodup
  has : ∀ p b sector, (b, sector) ∈ (proc p).bufs → (bufs b).sector = some sector

structure InodeAccounts (inodes : ℕ → Inode) (proc : ℕ → Proc) : Prop where
  locked : Exclusive (fun i => (inodes i).busy = true) fun p i => i ∈ (proc p).inodes
  nodup : ∀ p, (proc p).inodes.Nodup
  covered : ∀ i, Covers (inodes i).ref fun p => (proc p).refs i
  held : ∀ p, ∀ i ∈ (proc p).inodes, 1 ≤ (proc p).refs i

/-- The entries of the file table that processes own have one reference and one owner. -/
structure FileAccounts (ftable : ℕ → File) (proc : ℕ → Proc) : Prop where
  owned : ∀ p f ip, (proc p).files f = some ip → (ftable f).ref = 1 ∧ (ftable f).RefersTo ip
  unique : ∀ p q f, (proc p).files f ≠ none → (proc q).files f ≠ none → p = q
  fresh : ∀ f, (ftable f).ref = 0 → (ftable f).type ≠ .inode

/-- **The shared data agrees with what the processes hold.** -/
structure Accounted (w : World) : Prop where
  log : LogAccounts w.shared.log w.proc
  bufLock : BufLockAccounts w.shared.bufLock w.proc
  bufs : BufAccounts w.shared.bufs w.proc
  inodes : InodeAccounts w.shared.inodes w.proc
  files : FileAccounts w.shared.ftable w.proc

section Update

variable {proc : ℕ → Proc} {l' : Proc} {α : Type}

theorem field_update (field : Proc → α) : (fun p => field (update proc pid l' p)) =
      update (fun p => field (proc p)) pid (field l') := by
  funext p
  by_cases hp : p = pid <;> simp [hp]

theorem field_update_eq (field : Proc → α) (hfield : field l' = field (proc pid)) (p : ℕ) :
    field (update proc pid l' p) = field (proc p) := by
  by_cases hp : p = pid
  · subst hp
    simpa using hfield
  · simp [hp]

theorem exclusive_acquire {flag flag' : Prop} {field : Proc → Bool}
    (h : Exclusive (fun _ : Unit => flag) fun p _ => field (proc p) = true) (hfree : ¬ flag)
    (hflag : flag') (hfield : field l' = true) : Exclusive (fun _ : Unit => flag') fun p _ =>
      field (update proc pid l' p) = true := by
  apply h.acquire (p := pid) (i := ()) hfree
  · simp [hflag]
  · intro q _
    by_cases hq : q = pid <;> simp [hq, hfield]

theorem exclusive_release {flag flag' : Prop} {field : Proc → Bool}
    (h : Exclusive (fun _ : Unit => flag) fun p _ => field (proc p) = true)
    (hheld : field (proc pid) = true) (hflag : ¬ flag') (hfield : field l' = false) :
    Exclusive (fun _ : Unit => flag') fun p _ =>
      field (update proc pid l' p) = true := by
  apply h.release (p := pid) (i := ()) hheld
  · simp [hflag]
  · intro q _
    by_cases hq : q = pid <;> simp [hq, hfield]

theorem LogAccounts.step (h : LogAccounts s.log proc) (hok : (proc pid).LockOk a)
    (hmove : LogMove s (proc pid) a r s') :
    LogAccounts s'.log (update proc pid ((proc pid).after a r)) := by
  cases hmove with
  | acquire free busy => exact exclusive_acquire h (by simp [free]) busy rfl
  | release busy => exact exclusive_release h hok (by simp [busy]) rfl
  | frame busy hproc =>
    apply Exclusive.congr h
    · simp [busy]
    · intro p _
      rw [field_update_eq Proc.trans hproc]

theorem BufLockAccounts.step (h : BufLockAccounts s.bufLock proc) (hok : (proc pid).LockOk a)
    (hmove : BufLockMove s (proc pid) a r s') :
    BufLockAccounts s'.bufLock (update proc pid ((proc pid).after a r)) := by
  cases hmove with
  | acquire free held => exact exclusive_acquire h (by simp [free]) held rfl
  | release free => exact exclusive_release h hok (by simp [free]) rfl
  | frame held hproc =>
    apply Exclusive.congr h
    · simp [held]
    · intro p _
      rw [field_update_eq Proc.bufLock hproc]

theorem mem_eraseP_fst {bufs : List (ℕ × Sector)} (hnodup : (bufs.map Prod.fst).Nodup) (b : ℕ)
    (x : ℕ × Sector) : x ∈ (bufs.eraseP fun y => y.1 = b) ↔ x ∈ bufs ∧ x.1 ≠ b := by
  induction bufs with
  | nil => simp
  | cons y ys ih =>
    rw [List.map_cons, List.nodup_cons] at hnodup
    by_cases hy : y.1 = b
    · rw [List.eraseP_cons_of_pos (by simpa using hy), List.mem_cons]
      constructor
      · intro hx
        refine ⟨.inr hx, ?_⟩
        rintro rfl
        exact hnodup.1 (hy ▸ List.mem_map_of_mem hx)
      · rintro ⟨rfl | hx, hne⟩
        · exact absurd hy hne
        · exact hx
    · rw [List.eraseP_cons_of_neg (by simpa using hy), List.mem_cons, List.mem_cons,
        ih hnodup.2]
      constructor
      · rintro (rfl | ⟨hx, hne⟩)
        · exact ⟨.inl rfl, hy⟩
        · exact ⟨.inr hx, hne⟩
      · rintro ⟨rfl | hx, hne⟩
        · exact .inl rfl
        · exact .inr ⟨hx, hne⟩

namespace BufAccounts

theorem congr {bufs bufs' : ℕ → Buf} {proc' : ℕ → Proc} (h : BufAccounts bufs proc)
    (hbufs : ∀ b, (bufs' b).busy = (bufs b).busy ∧ (bufs' b).sector = (bufs b).sector)
    (hproc : ∀ p, (proc' p).bufs = (proc p).bufs) : BufAccounts bufs' proc' where
  locked := h.locked.congr (fun b => by rw [(hbufs b).1]) fun p b => by rw [hproc]
  nodup p := by
    rw [hproc]
    exact h.nodup p
  has p b sector := by
    rw [hproc, (hbufs b).2]
    exact h.has p b sector

theorem step (h : BufAccounts s.bufs proc) (hok : (proc pid).LockOk a)
    (hmove : BufMove s (proc pid) a r s') :
    BufAccounts s'.bufs (update proc pid ((proc pid).after a r)) := by
  cases hmove with
  | @take sector b buf _ free bufs busy has =>
    have hnew : ∀ p sector, (b, sector) ∉ (proc p).bufs := by
      intro p sector hmem
      have hbusy := h.locked.flag_of_holds ⟨sector, hmem⟩
      rw [free] at hbusy
      cases hbusy
    refine ⟨h.locked.acquire (p := pid) (i := b) (by simp [free]) ?_ ?_, ?_, ?_⟩
    · intro c
      by_cases hc : c = b <;> simp [bufs, hc, busy]
    · intro q c
      by_cases hq : q = pid
      · subst hq
        simp only [update_self, Proc.after, List.mem_cons, Prod.mk.injEq]
        constructor
        · rintro ⟨sector', ⟨hc, -⟩ | hmem⟩
          · exact .inr ⟨trivial, hc⟩
          · exact .inl ⟨sector', hmem⟩
        · rintro (⟨sector', hmem⟩ | ⟨-, hc⟩)
          · exact ⟨sector', .inr hmem⟩
          · exact ⟨sector, .inl ⟨hc, rfl⟩⟩
      · simp [hq]
    · intro p
      by_cases hp : p = pid
      · subst hp
        simp only [update_self, Proc.after, List.map_cons, List.nodup_cons]
        refine ⟨?_, h.nodup p⟩
        intro hmem
        obtain ⟨⟨c, sector'⟩, hx, rfl⟩ := List.mem_map.mp hmem
        exact hnew p sector' hx
      · simpa [hp] using h.nodup p
    · intro p c sector' hmem
      by_cases hc : c = b
      · subst hc
        by_cases hp : p = pid
        · subst hp
          simp only [update_self, Proc.after, List.mem_cons, Prod.mk.injEq] at hmem
          obtain ⟨-, rfl⟩ | hmem := hmem
          · simp [bufs, has]
          · exact absurd hmem (hnew p sector')
        · rw [update_of_ne hp] at hmem
          exact absurd hmem (hnew p sector')
      · rw [bufs, update_of_ne hc]
        apply h.has p
        by_cases hp : p = pid
        · subst hp
          simpa [Proc.after, hc] using hmem
        · simpa [hp] using hmem
  | @release b buf _ bufs free =>
    have hmem : ∀ x, x ∈ ((proc pid).after (.bufRelease b) ()).bufs ↔
        x ∈ (proc pid).bufs ∧ x.1 ≠ b := mem_eraseP_fst (h.nodup pid) b
    refine ⟨h.locked.release (p := pid) (i := b) hok ?_ ?_, ?_, ?_⟩
    · intro c
      by_cases hc : c = b <;> simp [bufs, hc, free]
    · intro q c
      by_cases hq : q = pid
      · subst hq
        simp [hmem]
      · simp [hq]
    · intro p
      by_cases hp : p = pid
      · subst hp
        rw [update_self]
        exact (List.Sublist.map _ List.eraseP_sublist).nodup (h.nodup p)
      · simpa [hp] using h.nodup p
    · intro p c sector hx
      have hbefore : (c, sector) ∈ (proc p).bufs := by
        by_cases hp : p = pid
        · subst hp
          rw [update_self] at hx
          exact ((hmem _).mp hx).1
        · simpa [hp] using hx
      have hne : c ≠ b := by
        rintro rfl
        obtain rfl := h.locked.unique ⟨sector, hbefore⟩ hok
        rw [update_self] at hx
        exact ((hmem _).mp hx).2 rfl
      rw [bufs, update_of_ne hne]
      exact h.has p c sector hbefore
  | frame bufs hproc => exact h.congr bufs (field_update_eq Proc.bufs hproc)

end BufAccounts

theorem shares_update {inodes : ℕ → Inode} {i : ℕ} {ip : Inode} {P : ℤ → (ℕ → ℕ) → Prop}
    (h : ∀ j, P (inodes j).ref fun p => (proc p).refs j)
    (hi : P ip.ref (update (fun p => (proc p).refs i) pid (l'.refs i)))
    (hother : ∀ j, j ≠ i → l'.refs j = (proc pid).refs j) (j : ℕ) :
    P (update inodes i ip j).ref fun p => (update proc pid l' p).refs j := by
  rw [field_update fun l => l.refs j]
  by_cases hj : j = i
  · subst hj
    simpa using hi
  · rw [update_of_ne hj, hother j hj]
    simpa using h j

namespace InodeAccounts

variable {inodes : ℕ → Inode} {i : ℕ} {ip : Inode}

theorem not_busy (h : InodeAccounts inodes proc) (href : (inodes i).ref = 0) :
    (inodes i).busy = false := by
  rw [Bool.eq_false_iff]
  intro hbusy
  obtain ⟨p, hp⟩ := (h.locked.flag_iff i).mp hbusy
  have hle := (h.covered i).le p
  have hheld := h.held p i hp
  omega

theorem lock (h : InodeAccounts inodes proc) (free : (inodes i).busy = false)
    (href : 1 ≤ (proc pid).refs i) (hip : ip.ref = (inodes i).ref) (hbusy : ip.busy = true)
    (hinodes : l'.inodes = i :: (proc pid).inodes) (hrefs : l'.refs = (proc pid).refs) :
    InodeAccounts (update inodes i ip) (update proc pid l') := by
  have hnew : i ∉ (proc pid).inodes := by
    intro hmem
    have hflag := h.locked.flag_of_holds hmem
    rw [free] at hflag
    cases hflag
  refine ⟨h.locked.acquire (p := pid) (i := i) (by simp [free]) ?_ ?_, ?_, ?_, ?_⟩
  · intro j
    by_cases hj : j = i <;> simp [hj, hbusy]
  · intro q j
    by_cases hq : q = pid
    · subst hq
      simp [hinodes, or_comm]
    · simp [hq]
  · intro p
    by_cases hp : p = pid
    · subst hp
      simpa [hinodes, hnew] using h.nodup p
    · simpa [hp] using h.nodup p
  · apply shares_update h.covered
    · simpa [hip, hrefs] using h.covered i
    · intro j _
      rw [hrefs]
  · intro p j hj
    by_cases hp : p = pid
    · subst hp
      simp only [update_self, hinodes, hrefs, List.mem_cons] at hj ⊢
      obtain rfl | hj := hj
      · exact href
      · exact h.held p j hj
    · simp only [update_of_ne hp] at hj ⊢
      exact h.held p j hj

theorem unlock (h : InodeAccounts inodes proc) (hmem : i ∈ (proc pid).inodes)
    (hbusy : ip.busy = false) (hinodes : l'.inodes = (proc pid).inodes.erase i)
    (hcovers : Covers ip.ref (update (fun p => (proc p).refs i) pid (l'.refs i)))
    (hother : ∀ j, j ≠ i → l'.refs j = (proc pid).refs j) :
    InodeAccounts (update inodes i ip) (update proc pid l') := by
  have herase : ∀ j, j ∈ l'.inodes ↔ j ≠ i ∧ j ∈ (proc pid).inodes := by
    intro j
    rw [hinodes, (h.nodup pid).mem_erase_iff]
  refine ⟨h.locked.release (p := pid) (i := i) hmem ?_ ?_, ?_,
    shares_update h.covered hcovers hother, ?_⟩
  · intro j
    by_cases hj : j = i <;> simp [hj, hbusy]
  · intro q j
    by_cases hq : q = pid
    · subst hq
      simp [herase, and_comm]
    · simp [hq]
  · intro p
    by_cases hp : p = pid
    · subst hp
      rw [update_self, hinodes]
      exact (h.nodup p).erase i
    · simpa [hp] using h.nodup p
  · intro p j hj
    by_cases hp : p = pid
    · subst hp
      simp only [update_self] at hj ⊢
      obtain ⟨hne, hj⟩ := (herase j).mp hj
      rw [hother j hne]
      exact h.held p j hj
    · simp only [update_of_ne hp] at hj ⊢
      exact h.held p j hj

theorem recount (h : InodeAccounts inodes proc) (hbusy : ip.busy = (inodes i).busy)
    (hinodes : l'.inodes = (proc pid).inodes)
    (hcovers : Covers ip.ref (update (fun p => (proc p).refs i) pid (l'.refs i)))
    (hother : ∀ j, j ≠ i → l'.refs j = (proc pid).refs j)
    (hheld : i ∈ (proc pid).inodes → 1 ≤ l'.refs i) :
    InodeAccounts (update inodes i ip) (update proc pid l') := by
  refine ⟨h.locked.congr (fun j => ?_) fun p j => ?_, fun p => ?_,
    shares_update h.covered hcovers hother, fun p j hj => ?_⟩
  · by_cases hj : j = i
    · subst hj
      simp [hbusy]
    · simp [hj]
  · rw [field_update_eq Proc.inodes hinodes]
  · rw [field_update_eq Proc.inodes hinodes]
    exact h.nodup p
  · rw [field_update_eq Proc.inodes hinodes] at hj
    by_cases hp : p = pid
    · subst hp
      rw [update_self]
      by_cases hji : j = i
      · subst hji
        exact hheld hj
      · rw [hother j hji]
        exact h.held p j hj
    · rw [update_of_ne hp]
      exact h.held p j hj

theorem step (h : InodeAccounts s.inodes proc) (hok : (proc pid).LockOk a)
    (hmove : InodeMove s (proc pid) a r s') :
    InodeAccounts s'.inodes (update proc pid ((proc pid).after a r)) := by
  cases hmove with
  | @gain _ _ i ip _ inodes ref busy hproc =>
    have hbusy : ip.busy = (s.inodes i).busy := by
      obtain hbusy | ⟨hzero, hbusy⟩ := busy
      · exact hbusy
      · rw [hbusy, h.not_busy hzero]
    rw [inodes, hproc]
    apply h.recount hbusy
    · rfl
    · rw [ref]
      simpa [Proc.gain] using (h.covered i).gain
    · intro j hj
      simp [Proc.gain, hj]
    · simp [Proc.gain]
  | acquire free inodes ref busy =>
    rw [inodes]
    exact h.lock free hok ref busy rfl rfl
  | @release i ip _ inodes ref free =>
    rw [inodes]
    apply h.unlock hok free rfl
    · rw [ref]
      simpa [Proc.after] using h.covered i
    · intro j _
      rfl
  | free free inodes ref busy =>
    rw [inodes]
    exact h.lock free hok.1 ref busy rfl rfl
  | @lose i ip _ inodes ref busy =>
    rw [inodes]
    apply h.recount busy
    · rfl
    · rw [ref]
      simpa [Proc.after, Proc.lose] using (h.covered i).lose hok.1
    · intro j hj
      simp [Proc.after, Proc.lose, hj]
    · intro hmem
      have htwo := hok.2 hmem
      simp only [Proc.after, Proc.lose, update_self]
      omega
  | @finish i ip _ inodes ref free =>
    rw [inodes]
    apply h.unlock hok.1 free rfl
    · rw [ref]
      simpa [Proc.after, Proc.lose] using (h.covered i).lose hok.2
    · intro j hj
      simp [Proc.after, Proc.lose, hj]
  | frame inodes hproc hrefs =>
    refine ⟨h.locked.congr (fun i => by rw [(inodes i).1]) fun p i => ?_, fun p => ?_,
      fun i => ?_, fun p i => ?_⟩
    · rw [field_update_eq Proc.inodes hproc]
    · rw [field_update_eq Proc.inodes hproc]
      exact h.nodup p
    · rw [(inodes i).2]
      simpa only [field_update_eq Proc.refs hrefs] using h.covered i
    · rw [field_update_eq Proc.inodes hproc, field_update_eq Proc.refs hrefs]
      exact h.held p i

end InodeAccounts

namespace FileAccounts

variable {f : ℕ} {file : File} {ftable : ℕ → File}

theorem setFile (h : FileAccounts ftable proc) {ip : Option (Option ℕ)}
    (hfiles : l'.files = update (proc pid).files f ip)
    (hothers : ∀ q, q ≠ pid → (proc q).files f = none)
    (howned : ∀ o, ip = some o → file.ref = 1 ∧ file.RefersTo o)
    (hfresh : file.ref = 0 → file.type ≠ .inode) :
    FileAccounts (update ftable f file) (update proc pid l') := by
  have hsplit : ∀ q g, (update proc pid l' q).files g =
      if g = f then if q = pid then ip else none else (proc q).files g := by
    intro q g
    by_cases hq : q = pid <;> by_cases hg : g = f
    · simp [hq, hfiles, hg]
    · simp [hq, hfiles, hg]
    · simp [hq, hg, hothers q hq]
    · simp [hq, hg]
  refine ⟨fun p g o hg => ?_, fun p q g hp hq => ?_, fun g hg => ?_⟩
  · rw [hsplit] at hg
    by_cases hgf : g = f
    · subst hgf
      by_cases hp : p = pid
      · simp only [hp, if_true] at hg
        simpa using howned o hg
      · simp [hp] at hg
    · rw [if_neg hgf] at hg
      rw [update_of_ne hgf]
      exact h.owned p g o hg
  · rw [hsplit] at hp hq
    by_cases hgf : g = f
    · by_cases hp' : p = pid <;> by_cases hq' : q = pid
      · rw [hp', hq']
      · simp [hgf, hq'] at hq
      · simp [hgf, hp'] at hp
      · simp [hgf, hp'] at hp
    · rw [if_neg hgf] at hp hq
      exact h.unique p q g hp hq
  · by_cases hgf : g = f
    · subst hgf
      simp only [update_self] at hg ⊢
      exact hfresh hg
    · simp only [update_of_ne hgf] at hg ⊢
      exact h.fresh g hg

theorem files_of_free (h : FileAccounts ftable proc) (hfree : (ftable f).ref = 0) (p : ℕ) :
    (proc p).files f = none := by
  rw [Option.eq_none_iff_forall_ne_some]
  intro o hp
  have hone := (h.owned p f o hp).1
  omega

theorem step (h : FileAccounts s.ftable proc) (hok : (proc pid).LockOk a)
    (hmove : FileMove s (proc pid) a r s') :
    FileAccounts s'.ftable (update proc pid ((proc pid).after a r)) := by
  cases hmove with
  | alloc hlt free ftable ref type =>
    rw [ftable]
    apply h.setFile rfl
    · intro q _
      exact h.files_of_free free q
    · rintro o ho
      cases ho
      exact ⟨ref, by simpa [File.RefersTo, type] using h.fresh _ free⟩
    · intro hzero
      omega
  | @close f file _ last ftable ref type =>
    obtain ⟨ip, hip⟩ := hok
    rw [ftable]
    apply h.setFile rfl
    · intro q hq
      by_contra hother
      exact hq (h.unique q pid f hother (by simp [hip]))
    · rintro o ho
      cases ho
    · simp [type]
  | share more =>
    obtain ⟨ip, hip⟩ := hok
    have hone := (h.owned pid _ ip hip).1
    omega
  | @setup f ip readable writable file _ ftable ref refers =>
    obtain ⟨o, ho⟩ := hok
    have hone := (h.owned pid f o ho).1
    rw [ftable]
    apply h.setFile rfl
    · intro q hq
      by_contra hother
      exact hq (h.unique q pid f hother (by simp [ho]))
    · rintro o' ho'
      cases ho'
      exact ⟨ref.trans hone, refers⟩
    · intro hzero
      omega
  | frame ftable hproc =>
    have hrefers : ∀ f o, (s'.ftable f).RefersTo o ↔ (s.ftable f).RefersTo o := by
      intro f o
      obtain ⟨-, htype, hip⟩ := ftable f
      cases o <;> simp [File.RefersTo, htype, hip]
    refine ⟨fun p f o => ?_, fun p q f => ?_, fun f => ?_⟩
    · rw [field_update_eq Proc.files hproc, (ftable f).1, hrefers]
      exact h.owned p f o
    · rw [field_update_eq Proc.files hproc, field_update_eq Proc.files hproc]
      exact h.unique p q f
    · rw [(ftable f).1, (ftable f).2.1]
      exact h.fresh f

end FileAccounts

end Update

namespace Accounted

theorem boot (disk : Disk) : Accounted (.boot disk) where
  log := ⟨fun _ => by simp [World.boot, Shared.boot, Proc.init, Log.boot], fun hp => nomatch hp⟩
  bufLock := ⟨fun _ => by simp [World.boot, Shared.boot, Proc.init], fun hp => nomatch hp⟩
  bufs :=
    { locked := ⟨fun _ => by simp [World.boot, Shared.boot, Proc.init],
        fun hp => nomatch hp.choose_spec⟩
      nodup := fun _ => List.nodup_nil
      has := fun _ _ _ hmem => nomatch hmem }
  inodes :=
    { locked := ⟨fun _ => by simp [World.boot, Shared.boot, Proc.init], fun hp => nomatch hp⟩
      nodup := fun _ => List.nodup_nil
      covered := fun _ _ => by simp [World.boot, Shared.boot, Proc.init]
      held := fun _ _ hmem => nomatch hmem }
  files :=
    { owned := fun _ _ _ hf => nomatch hf
      unique := fun _ _ _ hp => absurd rfl hp
      fresh := fun _ _ => by simp [World.boot, Shared.boot] }

theorem step (h : Accounted w) (hok : (w.proc pid).LockOk a)
    (hstep : step pid a w = .done w' wakes r) : Accounted w' := by
  obtain ⟨shared, heffect, rfl⟩ := effect_of_step hstep
  exact ⟨h.log.step hok (logMove_of_effect heffect),
    h.bufLock.step hok (bufLockMove_of_effect heffect),
    h.bufs.step hok (bufMove_of_effect heffect), h.inodes.step hok (inodeMove_of_effect heffect),
    h.files.step hok (fileMove_of_effect heffect)⟩

theorem allow (h : Accounted w) (hok : (w.proc pid).LockOk a)
    (hstep : Sysfile.step pid a w = .done w' wakes r) : (w.proc pid).LockAllow a r := by
  obtain ⟨shared, heffect, -⟩ := effect_of_step hstep
  cases a with
  | logGet =>
    cases heffect
    exact fun htrans => h.log.flag_of_holds (i := ()) htrans
  | fileAlloc =>
    simp only [effect, fileAlloc] at heffect
    split at heffect
    · next f hfind =>
      cases heffect
      have hfree := List.find?_some hfind
      have hmem := List.mem_of_find?_eq_some hfind
      exact ⟨h.files.files_of_free (by simpa using hfree) pid, List.mem_range.mp hmem⟩
    · cases heffect
      trivial
  | fileClose f =>
    obtain ⟨ip, hip⟩ := hok
    obtain ⟨hone, -⟩ := h.files.owned pid f ip hip
    simp only [effect, Shared.fileClose, hone] at heffect
    cases heffect
    exact ⟨_, rfl, fun ip hip => (h.files.owned pid f ip hip).2⟩
  | fileGet f =>
    cases heffect
    exact fun ip hip => (h.files.owned pid f ip hip).2
  | getCwd =>
    cases heffect
    rfl
  | getOpenfiles =>
    cases heffect
    rfl
  | _ => trivial

theorem ideIntr (h : Accounted w) : Accounted ⟨w.shared.ideIntr.1, w.proc⟩ := by
  obtain ⟨bufs, queue, disk, heq, hbufs⟩ := w.shared.ideIntr_frame
  rw [heq]
  exact ⟨h.log, h.bufLock, h.bufs.congr hbufs fun _ => rfl, h.inodes, h.files⟩

end Accounted

end MCertikos.Sysfile
