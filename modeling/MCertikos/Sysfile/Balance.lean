/-
# Reference and lock balance

Here an inode in the cache has exactly the references that the processes have.
-/

import MCertikos.Sysfile.Transactions
import Mathlib.Data.Set.Card

namespace MCertikos.Sysfile

open Math FS UserMem Function

/-! ## Processes -/

namespace Proc

variable {l l' : Proc}

structure Exact (l : Proc) : Prop extends l.Idle where
  spends : ∀ i, l.refs i = l.needs i
  slot : ∀ fd f, l.openfiles fd = some f → fd < nofile
  described : ∀ f ip, l.files f = some ip → ∃ fd, l.openfiles fd = some f

theorem exact_init : init.Exact where
  toIdle := idle_init
  spends i := by simp [needs, init]
  slot _ _ h := by cases h
  described _ _ h := by cases h

theorem SameSurplus.spends (h : l.SameSurplus l') (hl : ∀ i, l.refs i = l.needs i) (i : ℕ) :
    l'.refs i = l'.needs i := by
  have hsame := h i
  have hspends := hl i
  omega

theorem Called.exact (h : l.Called l') (hl : l.Exact) : l'.Exact := by
  have hidle := h.idle hl.toIdle
  cases h with
  | same => exact hl
  | @opened fd f ip hslot free hlt new =>
    refine ⟨hidle, (sameSurplus_opened hlt new fd ip).spends hl.spends, fun fd' f' hfd' => ?_,
      fun f' ip' hf' => ?_⟩
    · by_cases hnew : fd' = fd
      · rw [hnew]
        exact hslot
      · exact hl.slot fd' f' (by simpa [setFile, setOpenfile, gain, hnew] using hfd')
    · by_cases hnew : f' = f
      · subst hnew
        exact ⟨fd, by simp [setFile, setOpenfile]⟩
      · obtain ⟨fd', hfd'⟩ := hl.described f' ip'
          (by simpa [setFile, setOpenfile, gain, hnew] using hf')
        have hne : fd' ≠ fd := by
          rintro rfl
          rw [free] at hfd'
          cases hfd'
        exact ⟨fd', by simpa [setFile, setOpenfile, gain, hne] using hfd'⟩
  | @closed fd f i hlt hfile hslot =>
    have href := (needs_files hlt hfile).trans (hl.backed i)
    refine ⟨hidle, (sameSurplus_closed hlt hfile href fd).spends hl.spends,
      fun fd' f' hfd' => ?_, fun f' ip' hf' => ?_⟩
    · by_cases hfd : fd' = fd
      · simp [setOpenfile, hfd] at hfd'
      · exact hl.slot fd' f' (by simpa [setFile, setOpenfile, lose, hfd] using hfd')
    · have hne : f' ≠ f := by
        rintro rfl
        simp [setFile, setOpenfile, lose] at hf'
      obtain ⟨fd', hfd'⟩ := hl.described f' ip'
        (by simpa [setFile, setOpenfile, lose, hne] using hf')
      have hfd : fd' ≠ fd := by
        rintro rfl
        rw [hslot] at hfd'
        exact hne (Option.some.inj hfd').symm
      exact ⟨fd', by simpa [setFile, setOpenfile, lose, hfd] using hfd'⟩
  | chdir cwd =>
    exact ⟨hidle, (sameSurplus_chdir cwd (hl.refs_cwd cwd) _).spends hl.spends, hl.slot,
      hl.described⟩
  | setCwd cwd =>
    exact ⟨hidle, (sameSurplus_setCwd cwd _).spends hl.spends, hl.slot, hl.described⟩

end Proc

/-! ## The shared data -/

variable {w w' : World} {pid : ℕ} {a : Act} {r : a.Res} {wakes : List Chan}

/-- The references in the shared data are those of the processes, and the entries of the file
table in use are owned. -/
structure Tallied (w : World) : Prop where
  refs : ∀ i, Counts (w.shared.inodes i).ref fun p => (w.proc p).refs i
  files : ∀ f, (w.shared.ftable f).ref ≠ 0 → ∃ p, (w.proc p).files f ≠ none

namespace Tallied

theorem boot (disk : Disk) : Tallied (.boot disk) where
  refs _ := .zero
  files _ hf := absurd rfl hf

section Step

variable {s s' : Shared} {proc : ℕ → Proc}

theorem refs_step (h : ∀ i, Counts (s.inodes i).ref fun p => (proc p).refs i)
    (hok : (proc pid).LockOk a) (hmove : InodeMove s (proc pid) a r s') (i : ℕ) :
    Counts (s'.inodes i).ref fun p => (update proc pid ((proc pid).after a r) p).refs i := by
  cases hmove with
  | @gain _ _ i ip _ inodes ref busy hproc =>
    rw [inodes, hproc]
    apply shares_update h
    · rw [ref]
      simpa [Proc.gain] using (h i).gain
    · intro j hj
      simp [Proc.gain, hj]
  | @acquire i ip _ free inodes ref busy =>
    rw [inodes]
    apply shares_update h
    · rw [ref]
      simpa [Proc.after] using h i
    · intro j _
      rfl
  | @release i ip _ inodes ref free =>
    rw [inodes]
    apply shares_update h
    · rw [ref]
      simpa [Proc.after] using h i
    · intro j _
      rfl
  | @free i ip _ free inodes ref busy =>
    rw [inodes]
    apply shares_update h
    · rw [ref]
      simpa [Proc.after] using h i
    · intro j _
      rfl
  | @lose i ip _ inodes ref busy =>
    rw [inodes]
    apply shares_update h
    · rw [ref]
      simpa [Proc.after, Proc.lose] using (h i).lose hok.1
    · intro j hj
      simp [Proc.after, Proc.lose, hj]
  | @finish i ip _ inodes ref free =>
    rw [inodes]
    apply shares_update h
    · rw [ref]
      simpa [Proc.after, Proc.lose] using (h i).lose hok.2
    · intro j hj
      simp [Proc.after, Proc.lose, hj]
  | frame inodes hproc hrefs =>
    rw [(inodes i).2]
    simpa only [field_update_eq Proc.refs hrefs] using h i

theorem files_update {ftable : ℕ → File} {f : ℕ} {file : File} {l : Proc}
    {ip : Option (Option ℕ)} (h : ∀ g, (ftable g).ref ≠ 0 → ∃ p, (proc p).files g ≠ none)
    (hfiles : l.files = update (proc pid).files f ip)
    (hf : file.ref ≠ 0 → ip ≠ none) (g : ℕ) (hg : (update ftable f file g).ref ≠ 0) :
    ∃ p, (update proc pid l p).files g ≠ none := by
  by_cases hgf : g = f
  · subst hgf
    rw [update_self] at hg
    exact ⟨pid, by simpa [hfiles] using hf hg⟩
  · rw [update_of_ne hgf] at hg
    obtain ⟨p, hp⟩ := h g hg
    refine ⟨p, ?_⟩
    by_cases hpid : p = pid
    · subst hpid
      simpa [hfiles, hgf] using hp
    · simpa [hpid] using hp

theorem files_step (haccounts : FileAccounts s.ftable proc)
    (h : ∀ f, (s.ftable f).ref ≠ 0 → ∃ p, (proc p).files f ≠ none) (hok : (proc pid).LockOk a)
    (hmove : FileMove s (proc pid) a r s') (f : ℕ) (hf : (s'.ftable f).ref ≠ 0) :
    ∃ p, (update proc pid ((proc pid).after a r) p).files f ≠ none := by
  cases hmove with
  | alloc hlt free ftable ref type =>
    rw [ftable] at hf
    exact files_update h rfl (by simp) f hf
  | close last ftable ref type =>
    rw [ftable] at hf
    exact files_update h rfl (fun href => absurd ref href) f hf
  | share more =>
    obtain ⟨ip, hip⟩ := hok
    have hone := (haccounts.owned pid _ ip hip).1
    omega
  | setup ftable ref refers =>
    rw [ftable] at hf
    exact files_update h rfl (by simp) f hf
  | frame ftable hproc =>
    rw [(ftable f).1] at hf
    simpa only [field_update_eq Proc.files hproc] using h f hf

end Step

theorem step (h : Tallied w) (haccounts : Accounted w) (hok : (w.proc pid).LockOk a)
    (hstep : step pid a w = .done w' wakes r) : Tallied w' := by
  obtain ⟨shared, heffect, rfl⟩ := effect_of_step hstep
  exact ⟨refs_step h.refs hok (inodeMove_of_effect heffect),
    files_step haccounts.files h.files hok (fileMove_of_effect heffect)⟩

theorem ideIntr (h : Tallied w) : Tallied ⟨w.shared.ideIntr.1, w.proc⟩ := by
  obtain ⟨bufs, queue, disk, heq, -⟩ := w.shared.ideIntr_frame
  rw [heq]
  exact ⟨h.refs, h.files⟩

end Tallied

def balanceContract : System.Contract Call Reply Proc where
  pre c _ := c.isPwd = false
  post _ _ l := l.Exact

theorem lawful_balance :
    System.Lawful (system Call.code) (fun _ => locks) balanceContract World.proc Proc.Exact
      (fun w => Accounted w ∧ Tallied w) fun _ _ _ _ => True where
  start c l hl hc := by
    have hcalled := c.code_wp_called False hc hl.toIdle
    have hlocks : c.code.wp locks (fun _ => l.Called) l :=
      Task.wp_weaken hcalled (fun _ _ hok => hok.1)
        (fun _ _ _ hallow => ⟨hallow, fun hfalse => hfalse.elim⟩) rfl
    exact Task.wp_mono hlocks fun _ _ h => h.exact hl
  ret _ _ _ hl := hl
  act hinv hok hact _ := by
    refine ⟨⟨hinv.1.step hok hact, hinv.2.step hinv.1 hok hact⟩, hinv.1.allow hok hact, ?_⟩
    obtain ⟨shared, -, rfl⟩ := effect_of_step hact
    rfl
  intr hinv := ⟨⟨hinv.1.ideIntr, hinv.2.ideIntr⟩, rfl⟩

/-! ## The balance -/

def Shared.openFiles (s : Shared) (i : ℕ) : Finset ℕ :=
  (Finset.range nfile).filter fun f =>
    (s.ftable f).type = .inode ∧ 0 < (s.ftable f).ref ∧ (s.ftable f).ip = i

def World.workers (w : World) (i : ℕ) : Set ℕ := {p | (w.proc p).cwd = some i}

def World.descriptors (w : World) (f : ℕ) : Set (ℕ × ℕ) :=
  {x | x.2 < nofile ∧ (w.proc x.1).openfiles x.2 = some f}

structure Balanced (w : World) : Prop where
  workers_finite : ∀ i, (w.workers i).Finite
  inode_ref : ∀ i,
    (w.shared.inodes i).ref = (w.shared.openFiles i).card + (w.workers i).ncard
  descriptors_finite : ∀ f, (w.descriptors f).Finite
  file_ref : ∀ f, (w.shared.ftable f).ref = (w.descriptors f).ncard
  inode_free : ∀ i, (w.shared.inodes i).busy = false
  buf_free : ∀ b, (w.shared.bufs b).busy = false
  log_free : w.shared.log.busy = false

section Quiet

variable (hexact : ∀ p, (w.proc p).Exact)

include hexact

theorem owner_of_inUse (hacc : Accounted w) (htally : Tallied w) {f : ℕ}
    (hf : (w.shared.ftable f).ref ≠ 0) :
    ∃ p i, (w.proc p).files f = some (some i) ∧ (w.shared.ftable f).ref = 1 ∧
      (w.shared.ftable f).type = .inode ∧ (w.shared.ftable f).ip = i := by
  obtain ⟨p, hp⟩ := htally.files f hf
  obtain ⟨ip, hip⟩ := Option.ne_none_iff_exists'.mp hp
  obtain ⟨fd, hfd⟩ := (hexact p).described f ip hip
  obtain ⟨-, i, hi⟩ := (hexact p).own fd f hfd
  obtain ⟨hone, htype, hi'⟩ := hacc.files.owned p f (some i) hi
  exact ⟨p, i, hi, hone, htype, hi'⟩

theorem sum_files (hacc : Accounted w) (htally : Tallied w) {i : ℕ} {threads : Finset ℕ}
    (hnone : ∀ p ∉ threads, (w.proc p).needs i = 0) {f : ℕ} (hf : f < nfile) :
    ∑ p ∈ threads, (if (w.proc p).files f = some (some i) then 1 else 0) =
      if (w.shared.ftable f).type = .inode ∧ 0 < (w.shared.ftable f).ref ∧
        (w.shared.ftable f).ip = i then 1 else 0 := by
  by_cases hopen : (w.shared.ftable f).type = .inode ∧ 0 < (w.shared.ftable f).ref ∧
      (w.shared.ftable f).ip = i
  · obtain ⟨-, hpos, hip⟩ := hopen
    obtain ⟨p, j, hj, -, htype, hip'⟩ := owner_of_inUse hexact hacc htally hpos.ne'
    obtain rfl : j = i := hip'.symm.trans hip
    have hmem : p ∈ threads := by
      by_contra hnot
      have hneeds := Proc.needs_files hf hj
      rw [hnone p hnot] at hneeds
      cases hneeds
    rw [Finset.sum_eq_single_of_mem p hmem]
    · simp [hj, htype, hpos, hip]
    · intro q _ hq
      rw [if_neg]
      intro hfile
      exact hq (hacc.files.unique q p f (by simp [hfile]) (by simp [hj]))
  · rw [if_neg hopen]
    apply Finset.sum_eq_zero
    intro p _
    rw [if_neg]
    intro hfile
    obtain ⟨hone, htype, hip⟩ := hacc.files.owned p f (some i) hfile
    exact hopen ⟨htype, by omega, hip⟩

theorem inode_ref_of_exact (hacc : Accounted w) (htally : Tallied w) (i : ℕ) :
    (w.workers i).Finite ∧
      (w.shared.inodes i).ref = (w.shared.openFiles i).card + (w.workers i).ncard := by
  obtain ⟨threads, hnone, hsum⟩ := htally.refs i
  simp only [fun p => (hexact p).spends i] at hnone hsum
  have hworkers : w.workers i = ↑(threads.filter fun p => (w.proc p).cwd = some i) := by
    ext p
    simp only [World.workers, Set.mem_ofPred_eq, Finset.coe_filter]
    refine ⟨fun hcwd => ⟨?_, hcwd⟩, fun hp => hp.2⟩
    by_contra hnot
    have hneeds := Proc.needs_cwd hcwd
    rw [hnone p hnot] at hneeds
    cases hneeds
  have hfiles : ∑ p ∈ threads, ∑ f ∈ Finset.range nfile,
      (if (w.proc p).files f = some (some i) then 1 else 0) = (w.shared.openFiles i).card := by
    rw [Finset.sum_comm, Shared.openFiles, Finset.card_filter]
    apply Finset.sum_congr rfl
    intro f hf
    exact sum_files hexact hacc htally hnone (Finset.mem_range.mp hf)
  refine ⟨hworkers ▸ Finset.finite_toSet _, ?_⟩
  rw [hworkers, Set.ncard_coe_finset, Finset.card_filter, ← hsum]
  simp only [Proc.needs, Finset.sum_add_distrib, hfiles]
  push_cast
  omega

theorem file_ref_of_exact (hacc : Accounted w) (htally : Tallied w) (f : ℕ) :
    (w.descriptors f).Finite ∧ (w.shared.ftable f).ref = (w.descriptors f).ncard := by
  by_cases hf : (w.shared.ftable f).ref = 0
  · have hempty : w.descriptors f = ∅ := by
      ext ⟨p, fd⟩
      simp only [World.descriptors, Set.mem_ofPred_eq, Set.mem_empty_iff_false, iff_false]
      rintro ⟨-, hfd⟩
      obtain ⟨-, i, hi⟩ := (hexact p).own fd f hfd
      have hone := (hacc.files.owned p f (some i) hi).1
      omega
    simp [hempty, hf]
  · obtain ⟨p, i, hi, hone, -, -⟩ := owner_of_inUse hexact hacc htally hf
    obtain ⟨fd, hfd⟩ := (hexact p).described f (some i) hi
    have hsingle : w.descriptors f = {(p, fd)} := by
      ext ⟨q, fd'⟩
      simp only [World.descriptors, Set.mem_ofPred_eq, Set.mem_singleton_iff, Prod.mk.injEq]
      constructor
      · rintro ⟨-, hfd'⟩
        obtain ⟨-, j, hj⟩ := (hexact q).own fd' f hfd'
        obtain rfl := hacc.files.unique q p f (by simp [hj]) (by simp [hi])
        exact ⟨rfl, (hexact q).distinct fd' fd f hfd' hfd⟩
      · rintro ⟨rfl, rfl⟩
        exact ⟨(hexact q).slot fd' f hfd, hfd⟩
    simp [hsingle, hone]

theorem not_busy_of_exact (hacc : Accounted w) (c : Chan) : ¬ w.shared.Busy c := by
  intro hbusy
  obtain ⟨p, hp⟩ := (hacc.exclusive.flag_iff c).mp hbusy
  have hunlocked := (hexact p).toUnlocked
  cases c with
  | log => simp [Proc.Holds, hunlocked.trans] at hp
  | inode i => simp [Proc.Holds, hunlocked.inodes] at hp
  | buf b => simp [Proc.Holds, hunlocked.bufs] at hp

theorem balanced_of_exact (hacc : Accounted w) (htally : Tallied w) : Balanced w where
  workers_finite i := (inode_ref_of_exact hexact hacc htally i).1
  inode_ref i := (inode_ref_of_exact hexact hacc htally i).2
  descriptors_finite f := (file_ref_of_exact hexact hacc htally f).1
  file_ref f := (file_ref_of_exact hexact hacc htally f).2
  inode_free i := by simpa [Shared.Busy] using not_busy_of_exact hexact hacc (.inode i)
  buf_free b := by simpa [Shared.Busy] using not_busy_of_exact hexact hacc (.buf b)
  log_free := by simpa [Shared.Busy] using not_busy_of_exact hexact hacc .log

end Quiet

def NoPwd (_ : Calls) : ThreadOp Call Unit → Prop
  | .start _ c => c.isPwd = false
  | _ => True

instance (k : Calls) : (op : ThreadOp Call Unit) → Decidable (NoPwd k op)
  | .start _ c => inferInstanceAs (Decidable (c.isPwd = false))
  | .act _ => isTrue trivial
  | .intr _ => isTrue trivial

/-- **Reference and lock balance.** Whatever the disk holds, and whatever calls the processes
make, in any interleaving: whenever no call is running, the references and the locks are in
balance.  `sys_ls` is among the calls, since it is what sets a working directory first. -/
theorem calls_balanced {disk : Disk} {trace : List (ThreadOp Call Unit × Option Reply)}
    {k : Calls} (run : (system Call.code).machine.Run NoPwd (.boot (.boot disk)) trace k)
    (hquiet : ∀ p, k.running p = none) : Balanced k.state := by
  have hguard : ∀ k op, NoPwd k op → (system Call.code).Respects balanceContract World.proc
      (fun _ _ _ _ => True) k op := by
    intro k op hop
    cases op with
    | start pid c => exact hop
    | act pid => exact fun _ _ => trivial
    | intr irq => trivial
  have horder := lawful_balance.inOrder_of_run run hguard
    ⟨Accounted.boot disk, Tallied.boot disk⟩ fun _ => Proc.exact_init
  exact balanced_of_exact (fun p => horder.resting p (hquiet p)) horder.state.1 horder.state.2

theorem calls_balanced_of_session :
    ∃ (trace : List (ThreadOp Call Unit × Option Reply)) (k : Calls),
      (system Call.code).machine.Run NoPwd mkfsBoot trace k ∧ (k.state.proc 1).cwd = some 0 ∧
      (k.state.shared.inodes 0).ref = 2 ∧ Balanced k.state := by
  let guard : Calls → ThreadOp Call Unit → Prop := fun k op => NoPwd k op ∧ System.By 1 k op
  let turns := inSequence [(1, .open [slash] 0), (1, .ls 100), (1, .mkdir dot)]
  have heval : ((after guard turns).running 1).isNone ∧
      ((after guard turns).state.proc 1).cwd = some 0 ∧
      ((after guard turns).state.shared.inodes 0).ref = 2 := by decide +kernel
  obtain ⟨trace, hrun⟩ : ∃ trace,
      (system Call.code).machine.Run guard mkfsBoot trace (after guard turns) :=
    System.run_of_play guard 2000 turns mkfsBoot
  generalize after guard turns = k at heval hrun
  have hquiet : ∀ p, k.running p = none := by
    intro p
    by_cases hp : p = 1
    · subst hp
      exact Option.isNone_iff_eq_none.mp heval.1
    · exact System.running_of_by hrun (fun _ _ hop => hop.2) p hp
  have hrun := hrun.weaken fun _ _ hop => hop.1
  exact ⟨trace, k, hrun, heval.2.1, heval.2.2, calls_balanced hrun hquiet⟩

end MCertikos.Sysfile
