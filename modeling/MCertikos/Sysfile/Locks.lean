/-
# Mutual exclusion of the sleep locks

Three protocols put a process to sleep until a flag is clear: `begin_trans` on `log.busy`,
`inode_lock` on `I_BUSY` and `bufcache_get` on `B_BUSY`.
-/

import MCertikos.FS.BlockRuns
import MCertikos.Sysfile.Accounts
import MCertikos.Sysfile.CallSpec

namespace MCertikos.Sysfile

open Math FS

def Proc.Holds (l : Proc) : Chan → Prop
  | .log => l.trans = true
  | .inode i => i ∈ l.inodes
  | .buf b => ∃ sector, (b, sector) ∈ l.bufs

def Shared.Busy (s : Shared) : Chan → Prop
  | .log => s.log.busy = true
  | .inode i => (s.inodes i).busy = true
  | .buf b => (s.bufs b).busy = true

def Act.acquires : (a : Act) → a.Res → Option Chan
  | .logAcquire, _ => some .log
  | .inodeAcquire i, _ => some (.inode i)
  | .bufGet _, b => some (.buf b)
  | _, _ => none

variable {w w' : World} {pid : ℕ} {a : Act} {r : a.Res} {wakes : List Chan} {c : Chan}

theorem Accounted.exclusive (h : Accounted w) :
    Exclusive w.shared.Busy fun p c => (w.proc p).Holds c where
  flag_iff
    | .log => h.log.flag_iff ()
    | .inode i => h.inodes.locked.flag_iff i
    | .buf b => h.bufs.locked.flag_iff b
  unique {_ _ c} hp hq :=
    match c with
    | .log => h.log.unique (i := ()) hp hq
    | .inode _ => h.inodes.locked.unique hp hq
    | .buf _ => h.bufs.locked.unique hp hq

theorem step_acquires (hstep : step pid a w = .done w' wakes r) (hc : a.acquires r = some c) :
    ¬ w.shared.Busy c ∧ (w'.proc pid).Holds c := by
  obtain ⟨shared, heffect, rfl⟩ := effect_of_step hstep
  cases a with
  | logAcquire =>
    cases hc
    simp only [Shared.effect] at heffect
    split at heffect
    · cases heffect
    · next hfree => exact ⟨hfree, by simp [Proc.Holds, Proc.after]⟩
  | inodeAcquire i =>
    cases hc
    simp only [Shared.effect, Shared.inodeAcquire] at heffect
    split_ifs at heffect with hnone hfree
    exact ⟨hfree, by simp [Proc.Holds, Proc.after]⟩
  | bufGet sector =>
    cases hc
    cases bufMove_of_effect heffect with
    | take free bufs busy has => exact ⟨by simp [Shared.Busy, free], sector, by simp [Proc.after]⟩
    | frame bufs hproc =>
      have hlength := congrArg List.length hproc
      simp [Proc.after] at hlength
  | _ => cases hc

def system {ω β : Type} (program : ω → Code β) : System iface ω Unit β World Chan Stop where
  program := program
  act := step
  intr _ w := (⟨w.shared.ideIntr.1, w.proc⟩, w.shared.ideIntr.2)

theorem sound_locks {ω β : Type} {program : ω → Code β} {idle : Proc → Prop}
    (hprogram : ∀ args l, idle l → (program args).wp locks (fun _ => idle) l) :
    System.Sound (system program) (fun _ => locks) World.proc idle Accounted
      fun _ _ _ _ => True where
  start args l hl _ := hprogram args l hl
  ret _ _ _ hl := hl
  act hinv hok hact _ := by
    refine ⟨hinv.step hok hact, hinv.allow hok hact, ?_⟩
    obtain ⟨shared, -, rfl⟩ := effect_of_step hact
    rfl
  intr hinv := ⟨hinv.ideIntr, rfl⟩

theorem Call.code_wp_locks (c : Call) (l : Proc) (hl : l.Idle) :
    c.code.wp locks (fun _ => Proc.Idle) l :=
  Task.wp_weaken (c.code_wp False hl) (fun _ _ hok => hok.1)
    (fun _ _ _ hallow => ⟨hallow, fun hfalse => hfalse.elim⟩) rfl

abbrev Calls := Threads iface Call Reply World

/-- **Mutual exclusion of the sleep locks.** In every interleaving of clients that keep to the
discipline, the flag of a lock is set exactly if a process holds the lock, there is at most one
holder, and a wait loop that ends found the flag clear and has made its caller the one holder.
-/
theorem sleepLocks_exclusive {ω β : Type} {program : ω → Code β} {idle : Proc → Prop}
    (hinit : idle .init)
    (hprogram : ∀ args l, idle l → (program args).wp locks (fun _ => idle) l) {disk : Disk}
    {trace : List (ThreadOp ω Unit × Option β)} {k : Threads iface ω β World}
    (run : (system program).machine.Run Machine.anyStep (.boot (.boot disk)) trace k) :
    (∀ c, k.state.shared.Busy c ↔ ∃ p, (k.state.proc p).Holds c) ∧
    (∀ c p q, (k.state.proc p).Holds c → (k.state.proc q).Holds c → p = q) ∧
    ∀ (p : ℕ) (args : ω) (a : Act) (next : a.Res → Code β) (w : World) (wakes : List Chan)
      (r : a.Res) (c : Chan), k.running p = some (args, .act a next) →
      step p a k.state = .done w wakes r → a.acquires r = some c →
      ¬ k.state.shared.Busy c ∧ w.shared.Busy c ∧ ∀ q, (w.proc q).Holds c ↔ q = p := by
  have hsound := sound_locks hprogram
  have horderly := System.orderly_of_run hsound run
    (fun _ op _ => by cases op <;> simp [System.Admitted]) (Accounted.boot disk) fun _ => hinit
  have hexclusive := horderly.state.exclusive
  refine ⟨hexclusive.flag_iff, fun c p q => hexclusive.unique, ?_⟩
  intro p args a next w wakes r c hrun hstep hc
  obtain ⟨hok, -⟩ := horderly.task p args _ hrun
  have hafter := (horderly.state.step hok hstep).exclusive
  obtain ⟨hfree, hholds⟩ := step_acquires hstep hc
  refine ⟨hfree, hafter.flag_of_holds hholds, fun q => ⟨fun hq => hafter.unique hq hholds, ?_⟩⟩
  rintro rfl
  exact hholds

/-! ## The disk that `mkfs` makes -/

def mkfsRoot : Dinode :=
  { freshDinode tDir with nlink := 1, size := 512, addrs := fun k => if k.val = 0 then 29 else 0 }

def mkfsDisk : Disk := fun sector =>
  if sector = 1 then Superblock.encode ⟨1024, 985, 200, 10⟩
  else if sector = iblock 1 then mkfsRoot.encode (fun _ => 0) (1 % ipb)
  else if sector = 28 then balloc 30
  else if sector = 29 then
    Bytes.memmove (fun _ => 0) 0 32 fun j =>
      (Dirent.encode ⟨1, dot⟩ ++ Dirent.encode ⟨1, dotdot⟩).getD j 0
  else fun _ => 0

/-- Calls one after the other, each of which runs to its end, with a disk interrupt whenever it
sleeps. -/
def inSequence (calls : List (ℕ × Call)) : List (System.Turn Call Unit) :=
  calls.flatMap fun c =>
    .step (.start c.1 c.2) :: (List.replicate 30 [.go c.1, .step (.intr ())]).flatten

def mkfsBoot : Calls := .boot (.boot mkfsDisk)

def after (guard : Calls → ThreadOp Call Unit → Prop) [∀ k op, Decidable (guard k op)]
    (turns : List (System.Turn Call Unit)) : Calls :=
  (system Call.code).play guard 2000 turns mkfsBoot

def dPath : List Byte := [slash, 0x64]

/-- Process 2 sleeps until process 1 ends its transaction. -/
def contended : Calls := after Machine.anyStep (inSequence [(1, .open [slash] 0)] ++
  [.step (.start 1 (.mkdir dPath)), .go 1, .step (.start 2 (.mkdir dPath)), .go 2])

def handedOver : Calls := (system Call.code).play Machine.anyStep 2000
  ((List.replicate 30 [.step (.intr ()), .go 1]).flatten ++ [.step (.act 2)]) contended

theorem sleepLocks_exclusive_contended :
    ∃ trace trace' : List (ThreadOp Call Unit × Option Reply),
      (system Call.code).machine.Run Machine.anyStep mkfsBoot trace contended ∧
      ((system Call.code).sleepsAt contended 2).isSome ∧
      (∀ q, (contended.state.proc q).Holds .log ↔ q = 1) ∧
      (system Call.code).machine.Run Machine.anyStep mkfsBoot (trace ++ trace') handedOver ∧
      ∀ q, (handedOver.state.proc q).Holds .log ↔ q = 2 := by
  obtain ⟨trace, hrun⟩ : ∃ trace,
      (system Call.code).machine.Run Machine.anyStep mkfsBoot trace contended :=
    System.run_of_play Machine.anyStep 2000 _ mkfsBoot
  obtain ⟨trace', hrest⟩ : ∃ trace,
      (system Call.code).machine.Run Machine.anyStep contended trace handedOver :=
    System.run_of_play Machine.anyStep 2000 _ contended
  have hrun' := hrun.trans hrest
  have hone : (contended.state.proc 1).trans = true := by decide +kernel
  have htwo : (handedOver.state.proc 2).trans = true := by decide +kernel
  obtain ⟨-, hunique, -⟩ := sleepLocks_exclusive Proc.idle_init Call.code_wp_locks hrun
  obtain ⟨-, hunique', -⟩ := sleepLocks_exclusive Proc.idle_init Call.code_wp_locks hrun'
  exact ⟨trace, trace', hrun, by decide +kernel,
    fun q => ⟨fun hq => hunique .log q 1 hq hone, fun hq => hq ▸ hone⟩, hrun',
    fun q => ⟨fun hq => hunique' .log q 2 hq htwo, fun hq => hq ▸ htwo⟩⟩

end MCertikos.Sysfile
